import AgentFs.Paths

/-!
# Paths of the mount

The paths that the FUSE helper makes up: the root of a drive, and the names below it, one at a
time.  The kernel passes names that are not empty and have no `/`.
-/

namespace AgentFs

/-- `join_path`. -/
def joinPath (parent name : Text) : Text :=
  if parent = ['/'] then '/' :: name
  else if parent.getLast? = some '/' then parent ++ name
  else parent ++ '/' :: name

/-- `parent_dir`: the path up to its last `/`. -/
def parentDir (path : Text) : Text :=
  match (path.reverse.dropWhile (· ≠ '/')).tail.reverse with
  | [] => ['/']
  | dir => dir

/-- A name that the kernel passes. -/
structure IsName (name : Text) : Prop where
  nonempty : name ≠ []
  segment : '/' ∉ name

/-- A path that the helper can come to use. -/
inductive MountPath : Text → Prop
  | root : MountPath ['/']
  | child {parent name : Text} : MountPath parent → IsName name → MountPath (joinPath parent name)

/-- A path other than the root starts with `/` and does not end with it. -/
theorem MountPath.cases_root {path : Text} (h : MountPath path) :
  path = ['/'] ∨ path.head? = some '/' ∧ path.getLast? ≠ some '/'
  := by
  induction h with
  | root => exact .inl rfl
  | @child parent name hparent hname ih =>
      right
      have hlast : ∀ front : Text, (front ++ name).getLast? ≠ some '/' := by
        intro front heq
        rw [List.getLast?_append_of_ne_nil _ hname.nonempty] at heq
        exact hname.segment (List.mem_of_getLast? heq)
      unfold joinPath
      rcases ih with rfl | ⟨hhead, hend⟩
      · rw [if_pos rfl]
        exact ⟨rfl, hlast ['/']⟩
      · by_cases hroot : parent = ['/']
        · subst hroot
          exact absurd rfl hend
        · rw [if_neg hroot, if_neg hend]
          cases parent with
          | nil => cases hhead
          | cons c parent =>
              refine ⟨hhead, ?_⟩
              have hsplit : (c :: parent) ++ '/' :: name = ((c :: parent) ++ ['/']) ++ name := by
                simp
              rw [hsplit]
              apply hlast

/-- The daemon takes the paths of the mount as they are. -/
theorem MountPath.normalizePath_eq {path : Text} (h : MountPath path) :
  normalizePath path = path
  := by
  rcases h.cases_root with rfl | ⟨hhead, hlast⟩
  · rfl
  · unfold normalizePath
    rw [if_pos hhead, if_neg (fun hboth => hlast hboth.2)]

end AgentFs
