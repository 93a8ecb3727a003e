import Mathlib.Data.List.Basic
import Mathlib.Data.List.Nodup
import Mathlib.Data.List.Perm.Basic

/-!
# Forests of files and directories

A list of entries, each a file with a value or a directory with a list of entries.  A forest in
which no directory stands twice at one place is determined, up to the order of siblings, by the
paths of its nodes.
-/

/-- A list of entries: the first, and the rest. -/
inductive Forest (ν ι : Type) where
  | nil
  | file (name : ν) (info : ι) (rest : Forest ν ι)
  | directory (name : ν) (children rest : Forest ν ι)
  deriving DecidableEq, Repr

namespace Forest

variable {ν ι : Type}

/-! ### Nodes -/

/-- The nodes and their paths; a file comes with its value. -/
def nodes : Forest ν ι → List (List ν × Option ι)
  | nil => []
  | file name info rest => ([name], some info) :: rest.nodes
  | directory name children rest =>
      ([name], none) :: (children.nodes.map (fun x => (name :: x.1, x.2)) ++ rest.nodes)

/-- The paths of the directories. -/
def directories (f : Forest ν ι) : List (List ν) :=
  (f.nodes.filter (fun x => x.2.isNone)).map Prod.fst

/-- The paths and values of the files. -/
def files (f : Forest ν ι) : List (List ν × ι) :=
  f.nodes.filterMap (fun x => x.2.map (Prod.mk x.1))

/-- No directory stands twice at one place. -/
def Apart (f : Forest ν ι) : Prop :=
  f.directories.Nodup

@[simp]
theorem directories_nil :
  (nil : Forest ν ι).directories = []
  := rfl

@[simp]
theorem directories_file (name : ν) (info : ι) (rest : Forest ν ι) :
  (file name info rest).directories = rest.directories
  := rfl

@[simp]
theorem directories_directory (name : ν) (children rest : Forest ν ι) :
  (directory name children rest).directories =
    [name] :: (children.directories.map (name :: ·) ++ rest.directories)
  := by
  unfold directories
  rw [nodes, List.filter_cons_of_pos rfl, List.filter_append, List.filter_map, List.map_cons,
    List.map_append, List.map_map, List.map_map]
  rfl

theorem mem_directories {f : Forest ν ι} {path : List ν} :
  path ∈ f.directories ↔ (path, none) ∈ f.nodes
  := by
  unfold directories
  rw [List.mem_map]
  constructor
  · rintro ⟨⟨p, info⟩, hmem, rfl⟩
    obtain ⟨hnode, hnone⟩ := List.mem_filter.mp hmem
    obtain rfl : info = none := Option.isNone_iff_eq_none.mp hnone
    exact hnode
  · intro hnode
    exact ⟨_, List.mem_filter.mpr ⟨hnode, rfl⟩, rfl⟩

theorem ne_nil_of_mem_nodes {f : Forest ν ι} {x : List ν × Option ι} (h : x ∈ f.nodes) :
  x.1 ≠ []
  := by
  induction f with
  | nil => cases h
  | file name info rest ih =>
      rcases List.mem_cons.mp h with rfl | h
      · exact List.cons_ne_nil _ _
      · exact ih h
  | directory name children rest _ ih =>
      rcases List.mem_cons.mp h with rfl | h
      · exact List.cons_ne_nil _ _
      · rcases List.mem_append.mp h with h | h
        · obtain ⟨y, -, rfl⟩ := List.mem_map.mp h
          exact List.cons_ne_nil _ _
        · exact ih h

/-- What is below a directory of the top level needs that directory. -/
theorem mem_directories_of_mem_nodes {f : Forest ν ι} {name : ν} {path : List ν} {info : Option ι}
    (h : (name :: path, info) ∈ f.nodes) (hpath : path ≠ []) :
  [name] ∈ f.directories
  := by
  induction f with
  | nil => cases h
  | file name' info' rest ih =>
      rcases List.mem_cons.mp h with h | h
      · cases h
        exact absurd rfl hpath
      · exact ih h
  | directory name' children rest _ ih =>
      rw [directories_directory]
      rcases List.mem_cons.mp h with h | h
      · cases h
        exact absurd rfl hpath
      · rcases List.mem_append.mp h with h | h
        · obtain ⟨y, -, hy⟩ := List.mem_map.mp h
          cases hy
          exact List.mem_cons_self
        · exact List.mem_cons_of_mem _ (List.mem_append_right _ (ih h))

/-! ### The order of siblings -/

/-- Forests that differ in the order of siblings only. -/
inductive Perm : Forest ν ι → Forest ν ι → Prop where
  | nil : Perm nil nil
  | file {name : ν} {info : ι} {f g : Forest ν ι} (h : Perm f g) :
      Perm (file name info f) (file name info g)
  | directory {name : ν} {c d f g : Forest ν ι} (hchildren : Perm c d) (h : Perm f g) :
      Perm (directory name c f) (directory name d g)
  | swapFiles (name name' : ν) (info info' : ι) (f : Forest ν ι) :
      Perm (.file name info (.file name' info' f)) (.file name' info' (.file name info f))
  | swapFileDirectory (name name' : ν) (info : ι) (c f : Forest ν ι) :
      Perm (.file name info (.directory name' c f)) (.directory name' c (.file name info f))
  | swapDirectoryFile (name name' : ν) (info : ι) (c f : Forest ν ι) :
      Perm (.directory name' c (.file name info f)) (.file name info (.directory name' c f))
  | swapDirectories (name name' : ν) (c d f : Forest ν ι) :
      Perm (.directory name c (.directory name' d f)) (.directory name' d (.directory name c f))
  | trans {f g h : Forest ν ι} (hfg : Perm f g) (hgh : Perm g h) : Perm f h

theorem Perm.refl (f : Forest ν ι) :
  Perm f f
  := by
  induction f with
  | nil => exact .nil
  | file name info rest ih => exact .file ih
  | directory name children rest ihc ih => exact .directory ihc ih

theorem Perm.symm {f g : Forest ν ι} (h : Perm f g) :
  Perm g f
  := by
  induction h with
  | nil => exact .nil
  | file _ ih => exact .file ih
  | directory _ _ ihc ih => exact .directory ihc ih
  | swapFiles n n' i i' f => exact .swapFiles n' n i' i f
  | swapFileDirectory n n' i c f => exact .swapDirectoryFile n n' i c f
  | swapDirectoryFile n n' i c f => exact .swapFileDirectory n n' i c f
  | swapDirectories n n' c d f => exact .swapDirectories n' n d c f
  | trans _ _ ih ih' => exact .trans ih' ih

theorem Perm.nodes {f g : Forest ν ι} (h : Perm f g) :
  f.nodes.Perm g.nodes
  := by
  induction h with
  | nil => exact .refl _
  | file _ ih => exact ih.cons _
  | directory _ _ ihc ih =>
      apply List.Perm.cons
      exact (ihc.map _).append ih
  | swapFiles n n' i i' f => exact .swap _ _ _
  | swapFileDirectory n n' i c f =>
      simp only [Forest.nodes]
      apply (List.Perm.swap _ _ _).trans
      apply List.Perm.cons
      exact List.perm_middle.symm
  | swapDirectoryFile n n' i c f =>
      simp only [Forest.nodes]
      apply List.Perm.trans _ (List.Perm.swap _ _ _)
      apply List.Perm.cons
      exact List.perm_middle
  | swapDirectories n n' c d f =>
      simp only [Forest.nodes]
      apply (List.Perm.cons _ List.perm_middle).trans
      apply (List.Perm.swap _ _ _).trans
      apply List.Perm.cons
      apply List.Perm.trans _ List.perm_middle.symm
      apply List.Perm.cons
      rw [← List.append_assoc, ← List.append_assoc]
      exact List.perm_append_comm.append_right _
  | trans _ _ ih ih' => exact ih.trans ih'

/-- A file of the top level can be put first. -/
theorem exists_file_first {f : Forest ν ι} {name : ν} {info : ι}
    (h : ([name], some info) ∈ f.nodes) :
  ∃ g, Perm f (.file name info g)
  := by
  induction f with
  | nil => cases h
  | file name' info' rest ih =>
      rcases List.mem_cons.mp h with h | h
      · cases h
        exact ⟨rest, .refl _⟩
      · obtain ⟨g, hg⟩ := ih h
        exact ⟨.file name' info' g, .trans (.file hg) (.swapFiles _ _ _ _ _)⟩
  | directory name' children rest _ ih =>
      rcases List.mem_cons.mp h with h | h
      · cases h
      · rcases List.mem_append.mp h with h | h
        · obtain ⟨y, hy, hyx⟩ := List.mem_map.mp h
          obtain ⟨-, hnil⟩ := List.cons_eq_cons.mp (congrArg Prod.fst hyx)
          exact absurd hnil (ne_nil_of_mem_nodes hy)
        · obtain ⟨g, hg⟩ := ih h
          exact ⟨.directory name' children g,
            .trans (.directory (.refl _) hg) (.swapDirectoryFile _ _ _ _ _)⟩

/-- A directory of the top level can be put first. -/
theorem exists_directory_first {f : Forest ν ι} {name : ν} (h : ([name], none) ∈ f.nodes) :
  ∃ c g, Perm f (.directory name c g)
  := by
  induction f with
  | nil => cases h
  | file name' info' rest ih =>
      rcases List.mem_cons.mp h with h | h
      · cases h
      · obtain ⟨c, g, hg⟩ := ih h
        exact ⟨c, .file name' info' g, .trans (.file hg) (.swapFileDirectory _ _ _ _ _)⟩
  | directory name' children rest _ ih =>
      rcases List.mem_cons.mp h with h | h
      · cases h
        exact ⟨children, rest, .refl _⟩
      · rcases List.mem_append.mp h with h | h
        · obtain ⟨y, hy, hyx⟩ := List.mem_map.mp h
          obtain ⟨-, hnil⟩ := List.cons_eq_cons.mp (congrArg Prod.fst hyx)
          exact absurd hnil (ne_nil_of_mem_nodes hy)
        · obtain ⟨c, g, hg⟩ := ih h
          exact ⟨c, .directory name' children g,
            .trans (.directory (.refl _) hg) (.swapDirectories _ _ _ _ _)⟩

/-! ### Forests from their nodes -/

theorem directories_perm {f g : Forest ν ι} (h : f.nodes.Perm g.nodes) :
  f.directories.Perm g.directories
  := (h.filter _).map _

/-- The nodes are the directories and the files. -/
theorem nodes_perm {f g : Forest ν ι} (hdirectories : f.directories.Perm g.directories)
    (hfiles : f.files.Perm g.files) :
  f.nodes.Perm g.nodes
  := by
  have hsplit : ∀ l : List (List ν × Option ι), List.Perm
      (((l.filter (fun x => x.2.isNone)).map Prod.fst).map (fun path => (path, none)) ++
        (l.filterMap (fun x => x.2.map (Prod.mk x.1))).map (fun x => (x.1, some x.2))) l := by
    intro l
    induction l with
    | nil => exact List.Perm.refl _
    | cons x l ih =>
        obtain ⟨path, leaf⟩ := x
        cases leaf with
        | none => exact ih.cons _
        | some info =>
            rw [List.filter_cons_of_neg (by simp)]
            exact List.perm_middle.trans (ih.cons _)
  apply (hsplit f.nodes).symm.trans
  apply List.Perm.trans _ (hsplit g.nodes)
  exact (hdirectories.map _).append (hfiles.map _)

theorem Apart.children {name : ν} {children rest : Forest ν ι}
    (h : (directory name children rest).Apart) :
  children.Apart
  := by
  unfold Apart at h ⊢
  rw [directories_directory] at h
  exact List.Nodup.of_map _ (List.nodup_append'.mp (List.nodup_cons.mp h).2).1

theorem Apart.rest {name : ν} {children rest : Forest ν ι}
    (h : (directory name children rest).Apart) :
  rest.Apart
  := by
  unfold Apart at h ⊢
  rw [directories_directory] at h
  exact (List.nodup_append'.mp (List.nodup_cons.mp h).2).2.1

/-- A directory is not among the entries after it. -/
theorem Apart.notMem {name : ν} {children rest : Forest ν ι}
    (h : (directory name children rest).Apart) :
  [name] ∉ rest.directories
  := by
  unfold Apart at h
  rw [directories_directory] at h
  intro hmem
  exact (List.nodup_cons.mp h).1 (List.mem_append_right _ hmem)

/-- The nodes below the first entry of a forest that is apart. -/
theorem Apart.filter_below [DecidableEq ν] {name : ν} {children rest : Forest ν ι}
    (h : (directory name children rest).Apart) :
  (children.nodes.map (fun x => (name :: x.1, x.2)) ++ rest.nodes).filter
      (fun x => x.1.head? = some name ∧ x.1.tail ≠ []) =
    children.nodes.map (fun x => (name :: x.1, x.2))
  := by
  rw [List.filter_append, List.filter_eq_self.mpr, List.filter_eq_nil_iff.mpr, List.append_nil]
  · rintro ⟨path, info⟩ hx hbelow
    rw [decide_eq_true_eq] at hbelow
    obtain ⟨tail, rfl⟩ := List.head?_eq_some_iff.mp hbelow.1
    exact h.notMem (mem_directories_of_mem_nodes hx hbelow.2)
  · intro x hx
    obtain ⟨y, hy, rfl⟩ := List.mem_map.mp hx
    simpa using ne_nil_of_mem_nodes hy

/-- The other nodes after the first entry. -/
theorem Apart.filter_beside [DecidableEq ν] {name : ν} {children rest : Forest ν ι}
    (h : (directory name children rest).Apart) :
  (children.nodes.map (fun x => (name :: x.1, x.2)) ++ rest.nodes).filter
      (fun x => ¬ (x.1.head? = some name ∧ x.1.tail ≠ [])) =
    rest.nodes
  := by
  rw [List.filter_append, List.filter_eq_nil_iff.mpr, List.filter_eq_self.mpr, List.nil_append]
  · rintro ⟨path, info⟩ hx
    rw [decide_eq_true_eq]
    rintro ⟨hhead, htail⟩
    obtain ⟨tail, rfl⟩ := List.head?_eq_some_iff.mp hhead
    exact h.notMem (mem_directories_of_mem_nodes hx htail)
  · intro x hx
    obtain ⟨y, hy, rfl⟩ := List.mem_map.mp hx
    simpa using ne_nil_of_mem_nodes hy

/-- Forests with the same nodes, in which no directory stands twice, differ in the order of
siblings only. -/
theorem perm_of_nodes [DecidableEq ν] {f g : Forest ν ι} (hapart : f.Apart)
    (h : f.nodes.Perm g.nodes) :
  Perm f g
  := by
  induction f generalizing g with
  | nil =>
      cases g with
      | nil => exact .nil
      | file name info rest => exact absurd h.symm (List.cons_ne_nil _ _ ∘ List.Perm.eq_nil)
      | directory name c rest => exact absurd h.symm (List.cons_ne_nil _ _ ∘ List.Perm.eq_nil)
  | file name info rest ih =>
      obtain ⟨g', hg⟩ := exists_file_first (h.mem_iff.mp List.mem_cons_self)
      have hrest := (List.perm_cons _).mp (h.trans hg.nodes)
      exact .trans (.file (ih hapart hrest)) hg.symm
  | directory name children rest ihc ih =>
      obtain ⟨c, g', hg⟩ := exists_directory_first (h.mem_iff.mp List.mem_cons_self)
      have hall := h.trans hg.nodes
      have hrest := (List.perm_cons _).mp hall
      have hapart' : (directory name c g').Apart :=
        (directories_perm hall).nodup_iff.mp hapart
      have hbelow := hrest.filter (fun x => x.1.head? = some name ∧ x.1.tail ≠ [])
      have hbeside := hrest.filter (fun x => ¬ (x.1.head? = some name ∧ x.1.tail ≠ []))
      rw [hapart.filter_below, hapart'.filter_below] at hbelow
      rw [hapart.filter_beside, hapart'.filter_beside] at hbeside
      have hchildren : children.nodes.Perm c.nodes := by
        apply (List.map_perm_map_iff _).mp hbelow
        rintro ⟨p, i⟩ ⟨q, j⟩ hpq
        simpa using hpq
      exact .trans (.directory (ihc hapart.children hchildren) (ih hapart.rest hbeside)) hg.symm

/-! ### Cutting off -/

/-- The entries of the first `depth` levels. -/
def cut : Nat → Forest ν ι → Forest ν ι
  | 0, _ => nil
  | _ + 1, nil => nil
  | depth + 1, file name info rest => file name info (cut (depth + 1) rest)
  | depth + 1, directory name children rest =>
      directory name (cut depth children) (cut (depth + 1) rest)

theorem nodes_cut (depth : Nat) (f : Forest ν ι) :
  (f.cut depth).nodes = f.nodes.filter (fun x => x.1.length ≤ depth)
  := by
  induction f generalizing depth with
  | nil => cases depth <;> rfl
  | file name info rest ih =>
      cases depth with
      | zero =>
          symm
          apply List.filter_eq_nil_iff.mpr
          intro x hx
          simpa using ne_nil_of_mem_nodes hx
      | succ depth => rw [cut, nodes, nodes, ih, List.filter_cons_of_pos (by simp)]
  | directory name children rest ihc ih =>
      cases depth with
      | zero =>
          symm
          apply List.filter_eq_nil_iff.mpr
          intro x hx
          simpa using ne_nil_of_mem_nodes hx
      | succ depth =>
          rw [cut, nodes, nodes, ih, ihc, List.filter_cons_of_pos (by simp), List.filter_append,
            List.filter_map]
          simp [Function.comp_def]

theorem Apart.cut {f : Forest ν ι} (h : f.Apart) (depth : Nat) :
  (f.cut depth).Apart
  := by
  unfold Apart directories at h ⊢
  rw [nodes_cut]
  apply List.Nodup.sublist _ h
  exact (List.filter_sublist.filter _).map _

/-! ### Adding entries -/

/-- Add a file after the entries. -/
def addFile (name : ν) (info : ι) : Forest ν ι → Forest ν ι
  | nil => file name info nil
  | file name' info' rest => file name' info' (addFile name info rest)
  | directory name' children rest => directory name' children (addFile name info rest)

theorem nodes_addFile (name : ν) (info : ι) (f : Forest ν ι) :
  (f.addFile name info).nodes = f.nodes ++ [([name], some info)]
  := by
  induction f with
  | nil => rfl
  | file name' info' rest ih => rw [addFile, nodes, nodes, ih, List.cons_append]
  | directory name' children rest _ ih =>
      rw [addFile, nodes, nodes, ih, List.cons_append, List.append_assoc]

section

variable [DecidableEq ν]

/-- Change the entries of the first directory of that name, which is added when there is none. -/
def enter (name : ν) (change : Forest ν ι → Forest ν ι) : Forest ν ι → Forest ν ι
  | nil => directory name (change nil) nil
  | file name' info rest => file name' info (enter name change rest)
  | directory name' children rest =>
      if name' = name then directory name' (change children) rest
      else directory name' children (enter name change rest)

/-- The entries of the first directory of that name. -/
def child (name : ν) : Forest ν ι → Forest ν ι
  | nil => nil
  | file _ _ rest => child name rest
  | directory name' children rest => if name' = name then children else child name rest

/-- The directory of a name of the top level, where it is new. -/
def newDirectory (name : ν) (f : Forest ν ι) : List (List ν × Option ι) :=
  if [name] ∈ f.directories then [] else [([name], none)]

/-- Nodes that are added to a directory are added below its name, after the directory itself
where it is new. -/
theorem nodes_enter {name : ν} {change : Forest ν ι → Forest ν ι} {f : Forest ν ι}
    {added : List (List ν × Option ι)}
    (h : (change (f.child name)).nodes.Perm ((f.child name).nodes ++ added)) :
  (f.enter name change).nodes.Perm
    (f.nodes ++ (f.newDirectory name ++ added.map (fun x => (name :: x.1, x.2))))
  := by
  induction f with
  | nil =>
      unfold newDirectory
      rw [directories_nil, if_neg List.not_mem_nil]
      simp only [enter, nodes, List.append_nil, List.nil_append]
      exact (h.map _).cons _
  | file name' info rest ih => exact (ih h).cons _
  | directory name' children rest _ ih =>
      by_cases hname : name' = name
      · subst hname
        have hhere : (directory name' children rest).child name' = children := if_pos rfl
        rw [hhere] at h
        unfold newDirectory
        rw [enter, if_pos rfl, directories_directory, if_pos List.mem_cons_self, nodes, nodes,
          List.nil_append, List.cons_append, List.append_assoc]
        apply List.Perm.cons
        have hmap := h.map (fun x : List ν × Option ι => (name' :: x.1, x.2))
        rw [List.map_append] at hmap
        apply (hmap.append_right rest.nodes).trans
        rw [List.append_assoc]
        exact List.perm_append_comm.append_left _
      · have hchild : (directory name' children rest).child name = rest.child name := if_neg hname
        have hmem : [name] ∈ (directory name' children rest).directories ↔
            [name] ∈ rest.directories := by
          rw [directories_directory, List.mem_cons, List.mem_append]
          constructor
          · rintro (h | h | h)
            · exact absurd (List.cons_eq_cons.mp h).1.symm hname
            · obtain ⟨path, -, hpath⟩ := List.mem_map.mp h
              exact absurd (List.cons_eq_cons.mp hpath).1 hname
            · exact h
          · exact fun h => .inr (.inr h)
        rw [hchild] at h
        rw [enter, if_neg hname, nodes, nodes, List.cons_append, List.append_assoc]
        apply List.Perm.cons
        apply List.Perm.append_left
        unfold newDirectory at ih ⊢
        simpa only [hmem] using ih h

theorem Apart.child {f : Forest ν ι} (h : f.Apart) (name : ν) :
  (f.child name).Apart
  := by
  induction f with
  | nil => exact List.nodup_nil
  | file name' info rest ih => exact ih h
  | directory name' children rest _ ih =>
      unfold Forest.child
      split
      · exact h.children
      · exact ih h.rest

/-- The directories below a name are those of its entries. -/
theorem Apart.mem_directories_cons {f : Forest ν ι} (h : f.Apart) {name : ν} {path : List ν}
    (hpath : path ≠ []) :
  name :: path ∈ f.directories ↔ path ∈ (f.child name).directories
  := by
  induction f with
  | nil => simp [Forest.child]
  | file name' info rest ih => exact ih h
  | directory name' children rest _ ih =>
      rw [directories_directory, List.mem_cons, List.mem_append]
      unfold Forest.child
      split
      · rename_i hname
        subst hname
        constructor
        · rintro (heq | hmem | hmem)
          · exact absurd (List.cons_eq_cons.mp heq).2 hpath
          · obtain ⟨path', hpath', heq⟩ := List.mem_map.mp hmem
            rwa [← (List.cons_eq_cons.mp heq).2]
          · exact absurd (mem_directories_of_mem_nodes (mem_directories.mp hmem) hpath) h.notMem
        · intro hmem
          exact .inr (.inl (List.mem_map_of_mem hmem))
      · rename_i hname
        rw [← ih h.rest]
        constructor
        · rintro (heq | hmem | hmem)
          · exact absurd (List.cons_eq_cons.mp heq).2 hpath
          · obtain ⟨path', -, heq⟩ := List.mem_map.mp hmem
            exact absurd (List.cons_eq_cons.mp heq).1 hname
          · exact hmem
        · intro hmem
          exact .inr (.inr hmem)

end

end Forest
