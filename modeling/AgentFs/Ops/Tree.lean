import AgentFs.Db
import AgentFs.Lib.Forest

/-!
# The tree of a drive

The loop of `ops/tree.ts` that makes a tree of the keys of a listing.  Its depth limit leaves out
keys, and with them the folders above a file that lies deeper.
-/

namespace AgentFs

/-- An object of a listing. -/
structure TreeObject where
  key : Text
  size : Nat
  lastModified : Option Nat
  deriving DecidableEq, Repr

/-- What a file entry of the tree shows besides its name. -/
structure TreeFileInfo where
  size : Nat
  author : Option Text
  modifiedAt : Option Nat
  deriving DecidableEq, Repr

/-- A list of entries; a directory entry has its `children`. -/
abbrev TreeEntries := Forest Text TreeFileInfo

/-- The names of a key, and what a file shows; none for a key that ends in a slash. -/
abbrev TreeKey := List Text × Option TreeFileInfo

section

variable (s3Prefix startPath : Text) (dbFileMap : Text → Option FileRow)

/-- The entry of a file: the row of the file where there is one, else the object. -/
def treeFileInfo (fullPath : Text) (obj : TreeObject) : TreeFileInfo where
  size := ((dbFileMap fullPath).map (·.size)).getD obj.size
  author := ((dbFileMap fullPath).map (·.author)).filter (· ≠ [])
  modifiedAt := ((dbFileMap fullPath).map (·.modifiedAt)).or obj.lastModified

/-- The parts of an object's key below the prefix; none for a key that is skipped. -/
def treeKey (obj : TreeObject) : Option TreeKey :=
  let relativePath := obj.key.drop s3Prefix.length
  let parts := (relativePath.splitOn '/').filter (· ≠ [])
  if relativePath = [] ∨ parts = [] then none
  else if relativePath.getLast? = some '/' then some (parts, none)
  else some (parts, some (treeFileInfo dbFileMap (startPath ++ ['/'].intercalate parts) obj))

/-- The walk over the parts of a key: directories are found or created, a file is added. -/
def insertParts : List Text → Option TreeFileInfo → TreeEntries → TreeEntries
  | [], _, entries => entries
  | [name], some info, entries => entries.addFile name info
  | [name], none, entries => entries.enter name id
  | name :: part :: parts, leaf, entries => entries.enter name (insertParts (part :: parts) leaf)

/-- The tree of the objects of a listing. -/
def tree (objects : List TreeObject) (depth : Option Nat) : TreeEntries :=
  objects.foldl (fun root obj =>
    match treeKey s3Prefix startPath dbFileMap obj with
    | none => root
    | some (parts, leaf) =>
        if ∃ d ∈ depth, d < parts.length then root else insertParts parts leaf root) .nil

/-- The keys of a listing that are not skipped. -/
def treeKeys (objects : List TreeObject) : List TreeKey :=
  objects.filterMap (treeKey s3Prefix startPath dbFileMap)

end

/-- The path is one of a folder that a key lies in, or that a key with a slash at its end is. -/
def IsFolderOf (path : List Text) (key : TreeKey) : Prop :=
  path ≠ [] ∧ path <+: key.1 ∧ (key.2.isSome → path ≠ key.1)

/-- One directory for each folder of a key, and one file for each key of a file. -/
structure TreeMatches (keys : List TreeKey) (entries : TreeEntries) : Prop where
  once : entries.Apart
  folders : ∀ path, path ∈ entries.directories ↔ ∃ key ∈ keys, IsFolderOf path key
  files : entries.files.Perm (keys.filterMap (fun key => key.2.map (Prod.mk key.1)))

/-! ### One key -/

/-- The nodes that a key adds. -/
def addedNodes : List Text → Option TreeFileInfo → TreeEntries → List TreeKey
  | [], _, _ => []
  | [name], some info, _ => [([name], some info)]
  | [name], none, entries => entries.newDirectory name
  | name :: part :: parts, leaf, entries =>
      entries.newDirectory name ++
        (addedNodes (part :: parts) leaf (entries.child name)).map (fun x => (name :: x.1, x.2))

theorem nodes_insertParts (parts : List Text) (leaf : Option TreeFileInfo)
    (entries : TreeEntries) :
  (insertParts parts leaf entries).nodes.Perm (entries.nodes ++ addedNodes parts leaf entries)
  := by
  induction parts generalizing entries with
  | nil => rw [insertParts, addedNodes, List.append_nil]
  | cons name parts ih =>
      cases parts with
      | nil =>
          cases leaf with
          | some info => rw [insertParts, addedNodes, Forest.nodes_addFile]
          | none =>
              have hsame : (id (entries.child name)).nodes.Perm
                  ((entries.child name).nodes ++ []) := by
                rw [List.append_nil, id]
              have hkept := Forest.nodes_enter hsame
              rwa [List.map_nil, List.append_nil] at hkept
      | cons part parts =>
          rw [insertParts, addedNodes]
          exact Forest.nodes_enter (ih _)

/-- The folders of a key below its first name. -/
theorem isFolderOf_cons {name name' part : Text} {path parts : List Text}
    {leaf : Option TreeFileInfo} (hpath : path ≠ []) :
  IsFolderOf (name' :: path) (name :: part :: parts, leaf) ↔
    name' = name ∧ IsFolderOf path (part :: parts, leaf)
  := by
  unfold IsFolderOf
  dsimp only
  rw [List.cons_prefix_cons]
  constructor
  · rintro ⟨-, ⟨rfl, hprefix⟩, hleaf⟩
    exact ⟨rfl, hpath, hprefix, fun h heq => hleaf h (by rw [heq])⟩
  · rintro ⟨rfl, -, hprefix, hleaf⟩
    exact ⟨List.cons_ne_nil _ _, ⟨rfl, hprefix⟩, fun h heq => hleaf h (List.cons_eq_cons.mp heq).2⟩

theorem isFolderOf_head (name part : Text) (parts : List Text) (leaf : Option TreeFileInfo) :
  IsFolderOf [name] (name :: part :: parts, leaf)
  := ⟨List.cons_ne_nil _ _, ⟨part :: parts, rfl⟩, fun _ h => nomatch h⟩

/-- A key adds those of its folders that are not there yet. -/
theorem mem_addedNodes_folder {path parts : List Text} {leaf : Option TreeFileInfo}
    {entries : TreeEntries} (h : entries.Apart) (hparts : parts ≠ []) :
  (path, none) ∈ addedNodes parts leaf entries ↔
    IsFolderOf path (parts, leaf) ∧ path ∉ entries.directories
  := by
  induction parts generalizing path entries with
  | nil => exact absurd rfl hparts
  | cons name parts ih =>
      cases parts with
      | nil =>
          have hsingle : IsFolderOf path ([name], leaf) ↔ path = [name] ∧ leaf = none := by
            unfold IsFolderOf
            dsimp only
            constructor
            · rintro ⟨hne, hprefix, hleaf⟩
              have hpath : path = [name] := by
                cases path with
                | nil => exact absurd rfl hne
                | cons first path =>
                    obtain ⟨rfl, hnil⟩ := List.cons_prefix_cons.mp hprefix
                    rw [List.prefix_nil.mp hnil]
              refine ⟨hpath, ?_⟩
              cases leaf with
              | none => rfl
              | some info => exact absurd hpath (hleaf rfl)
            · rintro ⟨rfl, rfl⟩
              exact ⟨List.cons_ne_nil _ _, List.prefix_rfl, nofun⟩
          rw [hsingle]
          cases leaf with
          | some info => simp [addedNodes]
          | none =>
              unfold addedNodes Forest.newDirectory
              split
              · rename_i hthere
                constructor
                · exact nofun
                · rintro ⟨⟨rfl, -⟩, hnew⟩
                  exact absurd hthere hnew
              · rename_i hnew
                rw [List.mem_singleton, Prod.mk.injEq]
                constructor
                · rintro ⟨rfl, -⟩
                  exact ⟨⟨rfl, rfl⟩, hnew⟩
                · rintro ⟨⟨rfl, -⟩, -⟩
                  exact ⟨rfl, rfl⟩
      | cons part parts =>
          rw [addedNodes, List.mem_append, List.mem_map]
          unfold Forest.newDirectory
          constructor
          · rintro (hhead | ⟨⟨path', leaf'⟩, hmem, heq⟩)
            · split at hhead
              · cases hhead
              · rename_i hnew
                obtain rfl : path = [name] := congrArg Prod.fst (List.mem_singleton.mp hhead)
                exact ⟨isFolderOf_head name part parts leaf, hnew⟩
            · obtain ⟨rfl, rfl⟩ := Prod.mk.inj heq
              obtain ⟨hfolder, hnew⟩ := (ih (h.child name) (List.cons_ne_nil _ _)).mp hmem
              rw [h.mem_directories_cons hfolder.1]
              exact ⟨(isFolderOf_cons hfolder.1).mpr ⟨rfl, hfolder⟩, hnew⟩
          · rintro ⟨hfolder, hnew⟩
            obtain ⟨rest, hrest⟩ := hfolder.2.1
            cases path with
            | nil => exact absurd rfl hfolder.1
            | cons name' path =>
                by_cases hpath : path = []
                · subst hpath
                  obtain rfl := (List.cons_eq_cons.mp hrest).1
                  left
                  rw [if_neg hnew]
                  exact List.mem_singleton.mpr rfl
                · obtain ⟨rfl, hbelow⟩ := (isFolderOf_cons hpath).mp hfolder
                  rw [h.mem_directories_cons hpath] at hnew
                  right
                  exact ⟨(path, none),
                    (ih (h.child name') (List.cons_ne_nil _ _)).mpr ⟨hbelow, hnew⟩, rfl⟩

/-- No folder is added twice. -/
theorem nodup_addedNodes (parts : List Text) (leaf : Option TreeFileInfo)
    (entries : TreeEntries) :
  (addedNodes parts leaf entries).Nodup
  := by
  induction parts generalizing entries with
  | nil => exact List.nodup_nil
  | cons name parts ih =>
      cases parts with
      | nil =>
          cases leaf with
          | some info => exact List.nodup_singleton _
          | none =>
              unfold addedNodes Forest.newDirectory
              split
              · exact List.nodup_nil
              · exact List.nodup_singleton _
      | cons part parts =>
          have hbelow : ((addedNodes (part :: parts) leaf (entries.child name)).map
              (fun x => (name :: x.1, x.2))).Nodup := by
            apply (ih _).map
            rintro ⟨p, i⟩ ⟨q, j⟩ hpq
            simpa using hpq
          rw [addedNodes]
          unfold Forest.newDirectory
          split
          · exact hbelow
          · apply List.nodup_cons.mpr
            refine ⟨?_, hbelow⟩
            intro hmem
            obtain ⟨⟨path, info⟩, hadded, heq⟩ := List.mem_map.mp hmem
            obtain ⟨hpath, hinfo⟩ := Prod.mk.inj heq
            obtain rfl : path = [] := (List.cons_eq_cons.mp hpath).2
            obtain rfl : info = none := hinfo
            have hnode := (nodes_insertParts (part :: parts) leaf (entries.child name)).mem_iff.mpr
              (List.mem_append_right _ hadded)
            exact Forest.ne_nil_of_mem_nodes hnode rfl

/-- A key of a file adds this file, a key that ends in a slash none. -/
theorem addedNodes_files (parts : List Text) (leaf : Option TreeFileInfo) (entries : TreeEntries)
    (hparts : parts ≠ []) :
  (addedNodes parts leaf entries).filterMap (fun x => x.2.map (Prod.mk x.1)) =
    (leaf.map (Prod.mk parts)).toList
  := by
  induction parts generalizing entries with
  | nil => exact absurd rfl hparts
  | cons name parts ih =>
      cases parts with
      | nil =>
          cases leaf with
          | some info => rfl
          | none =>
              unfold addedNodes Forest.newDirectory
              split <;> rfl
      | cons part parts =>
          have hrest := ih (entries.child name) (List.cons_ne_nil _ _)
          have hhead : (entries.newDirectory name).filterMap
              (fun x => x.2.map (Prod.mk x.1)) = [] := by
            unfold Forest.newDirectory
            split <;> rfl
          rw [addedNodes, List.filterMap_append, hhead, List.nil_append, List.filterMap_map]
          have hmap : ((fun x : TreeKey => x.2.map (Prod.mk x.1)) ∘
              (fun x : TreeKey => (name :: x.1, x.2))) =
              fun x => (x.2.map (Prod.mk x.1)).map (fun y => (name :: y.1, y.2)) := by
            funext x
            obtain ⟨p, _ | i⟩ := x <;> rfl
          rw [hmap, ← List.map_filterMap, hrest]
          cases leaf <;> rfl

/-! ### All keys -/

theorem TreeMatches.insertParts {keys : List TreeKey} {entries : TreeEntries}
    (h : TreeMatches keys entries) {parts : List Text} (hparts : parts ≠ [])
    (leaf : Option TreeFileInfo) :
  TreeMatches (keys ++ [(parts, leaf)]) (AgentFs.insertParts parts leaf entries)
  := by
  have hnodes := nodes_insertParts parts leaf entries
  have hadded : ∀ path, path ∈ ((addedNodes parts leaf entries).filter
      (fun x => x.2.isNone)).map Prod.fst ↔
      IsFolderOf path (parts, leaf) ∧ path ∉ entries.directories := by
    intro path
    rw [← mem_addedNodes_folder h.once hparts, List.mem_map]
    constructor
    · rintro ⟨⟨p, info⟩, hmem, rfl⟩
      obtain ⟨hnode, hnone⟩ := List.mem_filter.mp hmem
      obtain rfl : info = none := Option.isNone_iff_eq_none.mp hnone
      exact hnode
    · intro hnode
      exact ⟨_, List.mem_filter.mpr ⟨hnode, rfl⟩, rfl⟩
  have hdirectories : (AgentFs.insertParts parts leaf entries).directories.Perm
      (entries.directories ++ ((addedNodes parts leaf entries).filter
        (fun x => x.2.isNone)).map Prod.fst) := by
    have hfilter := (hnodes.filter (fun x => x.2.isNone)).map Prod.fst
    rwa [List.filter_append, List.map_append] at hfilter
  constructor
  · apply hdirectories.nodup_iff.mpr
    apply List.nodup_append'.mpr
    refine ⟨h.once, ?_, ?_⟩
    · apply List.Nodup.map_on _ ((nodup_addedNodes parts leaf entries).filter _)
      rintro ⟨p, i⟩ hp ⟨q, j⟩ hq hpq
      obtain rfl : i = none := Option.isNone_iff_eq_none.mp (List.mem_filter.mp hp).2
      obtain rfl : j = none := Option.isNone_iff_eq_none.mp (List.mem_filter.mp hq).2
      exact Prod.ext hpq rfl
    · intro path hold hnew
      exact ((hadded path).mp hnew).2 hold
  · intro path
    rw [hdirectories.mem_iff, List.mem_append, hadded, h.folders path]
    constructor
    · rintro (⟨key, hkey, hfolder⟩ | ⟨hfolder, -⟩)
      · exact ⟨key, List.mem_append_left _ hkey, hfolder⟩
      · exact ⟨_, List.mem_append_right _ List.mem_cons_self, hfolder⟩
    · rintro ⟨key, hkey, hfolder⟩
      rcases List.mem_append.mp hkey with hkey | hkey
      · exact .inl ⟨key, hkey, hfolder⟩
      · rw [List.mem_singleton.mp hkey] at hfolder
        by_cases hthere : path ∈ entries.directories
        · exact .inl ((h.folders path).mp hthere)
        · refine .inr ⟨hfolder, fun hold => hthere ((h.folders path).mpr hold)⟩
  · have hfiles : (AgentFs.insertParts parts leaf entries).files.Perm
        (entries.files ++ (leaf.map (Prod.mk parts)).toList) := by
      have hmap := hnodes.filterMap (fun x => x.2.map (Prod.mk x.1))
      rwa [List.filterMap_append, addedNodes_files parts leaf entries hparts] at hmap
    apply hfiles.trans
    rw [List.filterMap_append]
    apply (h.files.append_right _).trans
    cases leaf <;> exact List.Perm.refl _

/-- The entries of the keys, one after the other. -/
def treeOf (keys : List TreeKey) : TreeEntries :=
  keys.foldl (fun entries key => insertParts key.1 key.2 entries) .nil

theorem treeOf_matches {keys : List TreeKey} (hkeys : ∀ key ∈ keys, key.1 ≠ []) :
  TreeMatches keys (treeOf keys)
  := by
  have hrun : ∀ (keys done : List TreeKey) (entries : TreeEntries),
      (∀ key ∈ keys, key.1 ≠ []) → TreeMatches done entries →
      TreeMatches (done ++ keys)
        (keys.foldl (fun entries key => insertParts key.1 key.2 entries) entries) := by
    intro keys
    induction keys with
    | nil =>
        intro done entries _ h
        rwa [List.append_nil]
    | cons key keys ih =>
        intro done entries hkeys h
        have hnext := ih (done ++ [key]) _ (fun k hk => hkeys k (List.mem_cons_of_mem key hk))
          (h.insertParts (hkeys key List.mem_cons_self) key.2)
        rwa [List.append_assoc, List.singleton_append] at hnext
  have hnil : TreeMatches [] .nil := by
    constructor
    · exact List.nodup_nil
    · intro path
      simp
    · exact List.Perm.refl _
  exact hrun keys [] .nil hkeys hnil

/-- The nodes are the folders and the files. -/
theorem TreeMatches.nodes_perm {keys keys' : List TreeKey} {entries entries' : TreeEntries}
    (h : TreeMatches keys entries) (h' : TreeMatches keys' entries')
    (hfolders : ∀ path, (∃ key ∈ keys, IsFolderOf path key) ↔ ∃ key ∈ keys', IsFolderOf path key)
    (hfiles : (keys.filterMap (fun key => key.2.map (Prod.mk key.1))).Perm
      (keys'.filterMap (fun key => key.2.map (Prod.mk key.1)))) :
  entries.nodes.Perm entries'.nodes
  := by
  have hdirectories : entries.directories.Perm entries'.directories := by
    apply (List.perm_ext_iff_of_nodup h.once h'.once).mpr
    intro path
    rw [h.folders, h'.folders, hfolders]
  exact Forest.nodes_perm hdirectories (h.files.trans (hfiles.trans h'.files.symm))

section

variable (s3Prefix startPath : Text) (dbFileMap : Text → Option FileRow)

theorem treeKey_ne_nil {obj : TreeObject} {key : TreeKey}
    (h : treeKey s3Prefix startPath dbFileMap obj = some key) :
  key.1 ≠ []
  := by
  unfold treeKey at h
  dsimp only at h
  split at h
  · cases h
  · rename_i hparts
    split at h
    · cases h
      exact fun hnil => hparts (.inr hnil)
    · cases h
      exact fun hnil => hparts (.inr hnil)

/-- The depth limit leaves out the keys with more names. -/
theorem tree_eq (objects : List TreeObject) (depth : Option Nat) :
  tree s3Prefix startPath dbFileMap objects depth =
    treeOf ((treeKeys s3Prefix startPath dbFileMap objects).filter
      (fun key => ¬ ∃ d ∈ depth, d < key.1.length))
  := by
  have hrun : ∀ (objects : List TreeObject) (root : TreeEntries),
      objects.foldl (fun root obj =>
        match treeKey s3Prefix startPath dbFileMap obj with
        | none => root
        | some (parts, leaf) =>
            if ∃ d ∈ depth, d < parts.length then root else insertParts parts leaf root) root =
      ((treeKeys s3Prefix startPath dbFileMap objects).filter
        (fun key => ¬ ∃ d ∈ depth, d < key.1.length)).foldl
          (fun entries key => insertParts key.1 key.2 entries) root := by
    intro objects
    induction objects with
    | nil =>
        intro root
        rfl
    | cons obj objects ih =>
        intro root
        rw [List.foldl_cons, ih]
        unfold treeKeys
        cases hkey : treeKey s3Prefix startPath dbFileMap obj with
        | none => rw [List.filterMap_cons_none hkey]
        | some key =>
            rw [List.filterMap_cons_some hkey]
            obtain ⟨parts, leaf⟩ := key
            dsimp only
            split
            · rename_i hdeep
              rw [List.filter_cons_of_neg (by simpa using hdeep)]
            · rename_i hshallow
              rw [List.filter_cons_of_pos (by simpa using hshallow), List.foldl_cons]
  exact hrun objects .nil

theorem treeKeys_ne_nil (objects : List TreeObject) :
  ∀ key ∈ treeKeys s3Prefix startPath dbFileMap objects, key.1 ≠ []
  := by
  intro key hkey
  obtain ⟨obj, -, hobj⟩ := List.mem_filterMap.mp hkey
  exact treeKey_ne_nil s3Prefix startPath dbFileMap hobj

theorem tree_full (objects : List TreeObject) :
  tree s3Prefix startPath dbFileMap objects none =
    treeOf (treeKeys s3Prefix startPath dbFileMap objects)
  := by
  rw [tree_eq, List.filter_eq_self.mpr]
  intro key _
  simp

/-- The order of the keys is that of the siblings only. -/
theorem tree_perm {objects objects' : List TreeObject} (h : objects.Perm objects') :
  (tree s3Prefix startPath dbFileMap objects none).Perm
    (tree s3Prefix startPath dbFileMap objects' none)
  := by
  have hmatches := treeOf_matches (treeKeys_ne_nil s3Prefix startPath dbFileMap objects)
  have hmatches' := treeOf_matches (treeKeys_ne_nil s3Prefix startPath dbFileMap objects')
  have hkeys : (treeKeys s3Prefix startPath dbFileMap objects).Perm
      (treeKeys s3Prefix startPath dbFileMap objects') := h.filterMap _
  rw [tree_full, tree_full]
  apply Forest.perm_of_nodes hmatches.once
  apply hmatches.nodes_perm hmatches'
  · intro path
    simp only [hkeys.mem_iff]
  · exact hkeys.filterMap _

end

/-! ### The depth limit -/

/-- A folder of the level at which a tree is cut off comes from a key that ends in a slash. -/
theorem IsFolderOf.marker {path : List Text} {key : TreeKey} (h : IsFolderOf path key)
    (hlength : key.1.length ≤ path.length) :
  key.1 = path ∧ key.2 = none
  := by
  have hsame := h.2.1.eq_of_length_le hlength
  refine ⟨hsame.symm, ?_⟩
  cases hleaf : key.2 with
  | none => rfl
  | some info => exact absurd hsame (h.2.2 (by rw [hleaf]; rfl))

/-- The files among the nodes of at most `depth` names. -/
theorem filterMap_shallow (depth : Nat) (keys : List TreeKey) :
  (keys.filter (fun x => x.1.length ≤ depth)).filterMap (fun x => x.2.map (Prod.mk x.1)) =
    (keys.filterMap (fun x => x.2.map (Prod.mk x.1))).filter (fun x => x.1.length ≤ depth)
  := by
  rw [List.filterMap_filter, List.filter_filterMap]
  apply List.filterMap_congr
  rintro ⟨path, leaf⟩ -
  cases leaf with
  | none => simp
  | some info =>
      dsimp only
      by_cases hlength : path.length ≤ depth
      · rw [if_pos (decide_eq_true hlength), Option.map_some, Option.filter_some_pos]
        exact decide_eq_true hlength
      · rw [if_neg (by simpa using hlength), Option.map_some, Option.filter_some_neg]
        simpa using hlength

/-- The keys of at most `depth` names make the tree cut off at `depth` exactly when above every
deeper key there is a key for the folder at that level. -/
theorem treeOf_filter_iff {keys : List TreeKey} (hkeys : ∀ key ∈ keys, key.1 ≠ []) {depth : Nat}
    (hdepth : 0 < depth) :
  (treeOf (keys.filter (fun key => key.1.length ≤ depth))).Perm ((treeOf keys).cut depth) ↔
    ∀ key ∈ keys, depth < key.1.length →
      ∃ marker ∈ keys, marker.1 = key.1.take depth ∧ marker.2 = none
  := by
  have hfull := treeOf_matches hkeys
  have hlimited := @treeOf_matches (keys.filter (fun key => key.1.length ≤ depth))
    (fun key hkey => hkeys key (List.mem_filter.mp hkey).1)
  have hcut : ∀ path, path ∈ ((treeOf keys).cut depth).directories ↔
      path ∈ (treeOf keys).directories ∧ path.length ≤ depth := by
    intro path
    rw [Forest.mem_directories, Forest.mem_directories, Forest.nodes_cut, List.mem_filter,
      decide_eq_true_eq]
  constructor
  · intro h key hkey hdeep
    have hpath : key.1.take depth ∈ ((treeOf keys).cut depth).directories := by
      apply (hcut _).mpr
      rw [hfull.folders]
      refine ⟨⟨key, hkey, ?_, List.take_prefix _ _, ?_⟩, List.length_take_le _ _⟩
      · intro hnil
        have hlength := congrArg List.length hnil
        rw [List.length_take_of_le (Nat.le_of_lt hdeep)] at hlength
        exact absurd hlength (Nat.ne_of_gt hdepth)
      · intro _ hsame
        have hlength := congrArg List.length hsame
        rw [List.length_take_of_le (Nat.le_of_lt hdeep)] at hlength
        exact absurd hlength (Nat.ne_of_lt hdeep)
    obtain ⟨marker, hmarker, hfolder⟩ := (hlimited.folders _).mp
      ((Forest.directories_perm h.nodes).mem_iff.mpr hpath)
    obtain ⟨hmarker, hshallow⟩ := List.mem_filter.mp hmarker
    have hlength : marker.1.length ≤ (key.1.take depth).length := by
      rw [List.length_take_of_le (Nat.le_of_lt hdeep)]
      exact of_decide_eq_true hshallow
    obtain ⟨hnames, hnone⟩ := hfolder.marker hlength
    exact ⟨marker, hmarker, hnames, hnone⟩
  · intro h
    apply Forest.perm_of_nodes hlimited.once
    apply Forest.nodes_perm
    · apply (List.perm_ext_iff_of_nodup hlimited.once (hfull.once.cut depth)).mpr
      intro path
      rw [hcut, hlimited.folders, hfull.folders]
      constructor
      · rintro ⟨key, hkey, hfolder⟩
        obtain ⟨hkey, hshallow⟩ := List.mem_filter.mp hkey
        refine ⟨⟨key, hkey, hfolder⟩, ?_⟩
        exact Nat.le_trans hfolder.2.1.length_le (of_decide_eq_true hshallow)
      · rintro ⟨⟨key, hkey, hfolder⟩, hlength⟩
        by_cases hshallow : key.1.length ≤ depth
        · exact ⟨key, List.mem_filter.mpr ⟨hkey, decide_eq_true hshallow⟩, hfolder⟩
        · obtain ⟨marker, hmarker, hnames, hnone⟩ := h key hkey (Nat.lt_of_not_le hshallow)
          refine ⟨marker, List.mem_filter.mpr ⟨hmarker, ?_⟩, hfolder.1, ?_, ?_⟩
          · rw [hnames]
            exact decide_eq_true (List.length_take_le _ _)
          · rw [hnames]
            exact List.prefix_take_iff.mpr ⟨hfolder.2.1, hlength⟩
          · rw [hnone]
            exact nofun
    · have hfiles : ((treeOf keys).cut depth).files =
          (treeOf keys).files.filter (fun x => x.1.length ≤ depth) := by
        unfold Forest.files
        rw [Forest.nodes_cut, filterMap_shallow]
      rw [hfiles]
      apply hlimited.files.trans
      rw [filterMap_shallow]
      exact hfull.files.symm.filter _

/-- Without a depth the tree has the folders and the files of the keys, in whatever order the
keys come; with a depth it is this tree cut off at that level exactly when above every deeper key
there is a key for the folder at that level. -/
theorem tree_depth_iff (s3Prefix startPath : Text) (dbFileMap : Text → Option FileRow)
    (objects : List TreeObject) {depth : Nat} (hdepth : 0 < depth) :
  (TreeMatches (treeKeys s3Prefix startPath dbFileMap objects)
        (tree s3Prefix startPath dbFileMap objects none) ∧
      (∀ objects', objects.Perm objects' →
        (tree s3Prefix startPath dbFileMap objects none).Perm
          (tree s3Prefix startPath dbFileMap objects' none)) ∧
      (tree s3Prefix startPath dbFileMap objects (some depth)).Perm
        ((tree s3Prefix startPath dbFileMap objects none).cut depth)) ↔
    ∀ key ∈ treeKeys s3Prefix startPath dbFileMap objects, depth < key.1.length →
      ∃ marker ∈ treeKeys s3Prefix startPath dbFileMap objects,
        marker.1 = key.1.take depth ∧ marker.2 = none
  := by
  have hkeys := treeKeys_ne_nil s3Prefix startPath dbFileMap objects
  have hlimited : tree s3Prefix startPath dbFileMap objects (some depth) =
      treeOf ((treeKeys s3Prefix startPath dbFileMap objects).filter
        (fun key => key.1.length ≤ depth)) := by
    rw [tree_eq]
    congr 2
    funext key
    simp
  rw [← treeOf_filter_iff hkeys hdepth, hlimited, tree_full]
  constructor
  · rintro ⟨-, -, h⟩
    exact h
  · intro h
    refine ⟨treeOf_matches hkeys, ?_, h⟩
    intro objects' hperm
    rw [← tree_full]
    exact tree_perm s3Prefix startPath dbFileMap hperm

/-- An object `a/b/` and a file below it: cut off at the second level. -/
def sampleListing : List TreeObject :=
  [⟨"o/a/b/c.md".toList, 3, none⟩, ⟨"o/a/b/".toList, 0, none⟩]

theorem tree_depth_iff_sampleListing :
  (tree "o/".toList "/".toList (fun _ => none) sampleListing (some 2)).Perm
    ((tree "o/".toList "/".toList (fun _ => none) sampleListing none).cut 2)
  := by
  refine ((tree_depth_iff "o/".toList "/".toList (fun _ => none) sampleListing
    (show 0 < 2 by decide)).mpr ?_).2.2
  decide +kernel

/-- With a depth of 1 the folder of the only file is not shown. -/
theorem tree_hides_folder :
  tree "o/".toList "/".toList (fun _ => none) [⟨"o/a/b.md".toList, 3, none⟩] (some 1) = .nil ∧
    (tree "o/".toList "/".toList (fun _ => none) [⟨"o/a/b.md".toList, 3, none⟩] none).cut 1 =
      .directory "a".toList .nil .nil ∧
    ¬ (tree "o/".toList "/".toList (fun _ => none) [⟨"o/a/b.md".toList, 3, none⟩] (some 1)).Perm
      ((tree "o/".toList "/".toList (fun _ => none) [⟨"o/a/b.md".toList, 3, none⟩] none).cut 1)
  := by
  have hnil : tree "o/".toList "/".toList (fun _ => none) [⟨"o/a/b.md".toList, 3, none⟩]
      (some 1) = .nil := by
    decide +kernel
  have hfolder : (tree "o/".toList "/".toList (fun _ => none)
      [⟨"o/a/b.md".toList, 3, none⟩] none).cut 1 = .directory "a".toList .nil .nil := by
    decide +kernel
  refine ⟨hnil, hfolder, ?_⟩
  rw [hnil, hfolder]
  intro h
  exact absurd h.nodes.length_eq (by decide)

end AgentFs
