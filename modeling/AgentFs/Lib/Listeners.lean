import AgentFs.Lib.OrderedMap

/-!
# Listeners by topic

A map from topics to sets of listeners, where a set is an object of its own: the function that
ends a subscription keeps the set it was put into, and deletes the topic only while the topic
still has that set.  A listener is a number, and a set lists its listeners in the order in which
they were added.
-/

/-- The set objects by number, and the set of each topic. -/
structure Listeners (κ : Type) where
  sets : List (List Nat)
  topics : OrderedMap κ Nat

namespace Listeners

variable {κ : Type}

def new : Listeners κ :=
  ⟨[], .empty⟩

variable [DecidableEq κ]

/-- The listeners of a topic, in the order in which they are called. -/
def subscribers (l : Listeners κ) (k : κ) : List Nat :=
  match l.topics.get k with
  | some ref => (l.sets[ref]?).getD []
  | none => []

/-- Add a listener to the set of the topic, or to a new one; the answer is the set. -/
def subscribe (l : Listeners κ) (k : κ) (fn : Nat) : Listeners κ × Nat :=
  match l.topics.get k with
  | some ref =>
      (⟨l.sets.modify ref (fun set => if fn ∈ set then set else set ++ [fn]), l.topics.set k ref⟩,
        ref)
  | none => (⟨l.sets ++ [[fn]], l.topics.set k l.sets.length⟩, l.sets.length)

/-- Delete a listener from the set, and the topic if that was its set and is empty now. -/
def unsubscribe (l : Listeners κ) (k : κ) (ref fn : Nat) : Listeners κ :=
  let sets := l.sets.modify ref (fun set => set.filter (· ≠ fn))
  if sets[ref]? = some [] ∧ l.topics.get k = some ref then ⟨sets, l.topics.delete k⟩
  else ⟨sets, l.topics⟩

/-- The topics have sets of their own, which are not empty and name no listener twice. -/
structure Sound (l : Listeners κ) : Prop where
  set : ∀ k ref, l.topics.get k = some ref → ∃ set, l.sets[ref]? = some set ∧ set ≠ [] ∧ set.Nodup
  apart : ∀ k k' ref, l.topics.get k = some ref → l.topics.get k' = some ref → k = k'

theorem sound_new :
  (new : Listeners κ).Sound
  where
    set := by rintro k ref ⟨⟩
    apart := by rintro k k' ref ⟨⟩

/-- The listener is in the set of the topic, which is the object `ref`. -/
def Holds (l : Listeners κ) (k : κ) (ref fn : Nat) : Prop :=
  l.topics.get k = some ref ∧ fn ∈ l.subscribers k

theorem subscribers_eq {l : Listeners κ} {k : κ} {ref : Nat} (h : l.topics.get k = some ref) :
  l.subscribers k = (l.sets[ref]?).getD []
  := by simp only [subscribers, h]

theorem Sound.nodup {l : Listeners κ} (hl : l.Sound) (k : κ) :
  (l.subscribers k).Nodup
  := by
  unfold subscribers
  cases h : l.topics.get k with
  | none => exact List.nodup_nil
  | some ref =>
      obtain ⟨set, hset, -, hnodup⟩ := hl.set k ref h
      simp only [hset, Option.getD_some]
      exact hnodup

/-- A topic that has a set object of its own keeps its listeners while another one changes. -/
theorem subscribers_modify {l : Listeners κ} (hl : l.Sound) {k k' : κ} {ref : Nat}
    (h : l.topics.get k = some ref) (hne : k' ≠ k) (f : List Nat → List Nat)
    {topics : OrderedMap κ Nat} (htopics : topics.get k' = l.topics.get k') :
  (⟨l.sets.modify ref f, topics⟩ : Listeners κ).subscribers k' = l.subscribers k'
  := by
  unfold subscribers
  dsimp only
  rw [htopics]
  cases hget : l.topics.get k' with
  | none => rfl
  | some ref' =>
      have href : ref ≠ ref' := by
        rintro rfl
        exact hne (hl.apart k' k ref hget h)
      simp [href]

/-! ### Subscribing -/

variable {l : Listeners κ} {k : κ} {fn : Nat}

theorem subscribers_subscribe (hl : l.Sound) (hfn : fn ∉ l.subscribers k) (k' : κ) :
  (l.subscribe k fn).1.subscribers k' =
    if k' = k then l.subscribers k ++ [fn] else l.subscribers k'
  := by
  unfold subscribe
  cases hget : l.topics.get k with
  | none =>
      dsimp only
      split
      case isTrue h =>
        subst h
        simp [subscribers, OrderedMap.get_set, hget]
      case isFalse h =>
        unfold subscribers
        dsimp only
        rw [OrderedMap.get_set, if_neg h]
        cases hget' : l.topics.get k' with
        | none => rfl
        | some ref =>
            obtain ⟨set, hset, -⟩ := hl.set k' ref hget'
            have hlt := (List.getElem?_eq_some_iff.mp hset).1
            simp only [List.getElem?_append_left hlt]
  | some ref =>
      dsimp only
      split
      case isTrue h =>
        subst h
        obtain ⟨set, hset, -⟩ := hl.set k' ref hget
        rw [subscribers_eq hget, hset, Option.getD_some] at hfn ⊢
        simp [subscribers, OrderedMap.get_set, hset, hfn]
      case isFalse h =>
        exact subscribers_modify hl hget h _ (by rw [OrderedMap.get_set, if_neg h])

theorem get_subscribe :
  (l.subscribe k fn).1.topics.get k = some (l.subscribe k fn).2
  := by
  unfold subscribe
  split
  · rw [OrderedMap.get_set, if_pos rfl]
  · rw [OrderedMap.get_set, if_pos rfl]

theorem get_subscribe_of_get {k' : κ} {ref : Nat} (h : l.topics.get k' = some ref) :
  (l.subscribe k fn).1.topics.get k' = some ref
  := by
  unfold subscribe
  split
  case h_1 ref' hget =>
    rw [OrderedMap.get_set]
    split
    case isTrue hk =>
      rw [hk, hget] at h
      exact h
    case isFalse hk => exact h
  case h_2 hget =>
    rw [OrderedMap.get_set, if_neg _]
    · exact h
    · rintro rfl
      rw [hget] at h
      cases h

theorem Sound.subscribe (hl : l.Sound) (hfn : fn ∉ l.subscribers k) :
  (l.subscribe k fn).1.Sound
  := by
  have hlt : ∀ k' ref, l.topics.get k' = some ref → ref < l.sets.length := by
    intro k' ref h
    obtain ⟨set, hset, -⟩ := hl.set k' ref h
    exact (List.getElem?_eq_some_iff.mp hset).1
  unfold Listeners.subscribe
  cases hget : l.topics.get k with
  | none =>
      constructor
      · intro k' ref h
        dsimp only at h ⊢
        rw [OrderedMap.get_set] at h
        split at h
        case isTrue hk =>
          cases h
          exact ⟨[fn], by simp, List.cons_ne_nil _ _, List.nodup_singleton fn⟩
        case isFalse hk =>
          rw [List.getElem?_append_left (hlt k' ref h)]
          exact hl.set k' ref h
      · intro k₁ k₂ ref h₁ h₂
        dsimp only at h₁ h₂
        rw [OrderedMap.get_set] at h₁ h₂
        split at h₁
        · split at h₂
          case isTrue hk hk' => rw [hk, hk']
          case isFalse hk hk' =>
            cases h₁
            exact absurd (hlt k₂ _ h₂) (Nat.lt_irrefl _)
        · split at h₂
          · cases h₂
            exact absurd (hlt k₁ _ h₁) (Nat.lt_irrefl _)
          · exact hl.apart k₁ k₂ ref h₁ h₂
  | some ref =>
      have hsame : ∀ k', (l.topics.set k ref).get k' = l.topics.get k' := by
        intro k'
        rw [OrderedMap.get_set]
        split
        case isTrue hk => rw [hk, hget]
        case isFalse => rfl
      constructor
      · intro k' ref' h
        dsimp only at h ⊢
        rw [hsame] at h
        obtain ⟨set, hset, hne, hnodup⟩ := hl.set k' ref' h
        rw [List.getElem?_modify, hset]
        by_cases href : ref = ref'
        · subst href
          obtain rfl := hl.apart k' k ref h hget
          rw [subscribers_eq hget, hset, Option.getD_some] at hfn
          refine ⟨set ++ [fn], by simp [hfn], by simp, ?_⟩
          exact List.nodup_append.mpr ⟨hnodup, List.nodup_singleton fn, by
            rintro a ha b hb rfl
            exact hfn (List.mem_singleton.mp hb ▸ ha)⟩
        · exact ⟨set, by simp [href], hne, hnodup⟩
      · intro k₁ k₂ ref' h₁ h₂
        dsimp only at h₁ h₂
        rw [hsame] at h₁ h₂
        exact hl.apart k₁ k₂ ref' h₁ h₂

theorem Holds.subscribe {k' : κ} {ref fn' : Nat} (h : l.Holds k' ref fn') (hl : l.Sound)
    (hfn : fn ∉ l.subscribers k) :
  (l.subscribe k fn).1.Holds k' ref fn'
  := by
  refine ⟨get_subscribe_of_get h.1, ?_⟩
  rw [subscribers_subscribe hl hfn]
  split
  case isTrue hk => exact List.mem_append_left _ (hk ▸ h.2)
  case isFalse => exact h.2

theorem holds_subscribe (hl : l.Sound) (hfn : fn ∉ l.subscribers k) :
  (l.subscribe k fn).1.Holds k (l.subscribe k fn).2 fn
  := by
  refine ⟨get_subscribe, ?_⟩
  rw [subscribers_subscribe hl hfn, if_pos rfl]
  exact List.mem_append_right _ (List.mem_singleton_self fn)

/-! ### Ending a subscription -/

variable {ref : Nat}

theorem subscribers_unsubscribe (hl : l.Sound) (h : l.topics.get k = some ref) (k' : κ) :
  (l.unsubscribe k ref fn).subscribers k' =
    if k' = k then (l.subscribers k).filter (· ≠ fn) else l.subscribers k'
  := by
  obtain ⟨set, hset, -⟩ := hl.set k ref h
  have hfilter : (l.sets.modify ref (fun set => set.filter (· ≠ fn)))[ref]? =
      some (set.filter (· ≠ fn)) := by
    simp [hset]
  unfold unsubscribe
  dsimp only
  rw [hfilter]
  split
  case isTrue hempty =>
    rw [Option.some_inj] at hempty
    split
    case isTrue hk =>
      subst hk
      rw [subscribers_eq h, hset, Option.getD_some, hempty.1]
      simp [subscribers, OrderedMap.get_delete]
    case isFalse hk =>
      exact subscribers_modify hl h hk _ (by rw [OrderedMap.get_delete, if_neg hk])
  case isFalse =>
    split
    case isTrue hk =>
      subst hk
      simp only [subscribers, h, hset, hfilter, Option.getD_some]
    case isFalse hk => exact subscribers_modify hl h hk _ rfl

theorem Sound.unsubscribe (hl : l.Sound) (h : l.topics.get k = some ref) :
  (l.unsubscribe k ref fn).Sound
  := by
  have hsets : ∀ k' ref', l.topics.get k' = some ref' →
      ∃ set, (l.sets.modify ref (fun set => set.filter (· ≠ fn)))[ref']? = some set ∧
        (k' ≠ k → set ≠ []) ∧ set.Nodup := by
    intro k' ref' h'
    obtain ⟨set, hset, hne, hnodup⟩ := hl.set k' ref' h'
    rw [List.getElem?_modify, hset]
    by_cases href : ref = ref'
    · subst href
      exact ⟨set.filter (· ≠ fn), by simp, fun hk => absurd (hl.apart k' k ref h' h) hk,
        hnodup.filter _⟩
    · exact ⟨set, by simp [href], fun _ => hne, hnodup⟩
  unfold Listeners.unsubscribe
  dsimp only
  split
  case isTrue hempty =>
    have hget : ∀ k' ref', (l.topics.delete k).get k' = some ref' →
        k' ≠ k ∧ l.topics.get k' = some ref' := by
      intro k' ref' h'
      rw [OrderedMap.get_delete] at h'
      split at h'
      · cases h'
      · exact ⟨‹_›, h'⟩
    constructor
    · intro k' ref' h'
      obtain ⟨hk, h'⟩ := hget k' ref' h'
      obtain ⟨set, hset, hne, hnodup⟩ := hsets k' ref' h'
      exact ⟨set, hset, hne hk, hnodup⟩
    · intro k₁ k₂ ref' h₁ h₂
      exact hl.apart k₁ k₂ ref' (hget k₁ ref' h₁).2 (hget k₂ ref' h₂).2
  case isFalse hfull =>
    constructor
    · intro k' ref' h'
      obtain ⟨set, hset, hne, hnodup⟩ := hsets k' ref' h'
      refine ⟨set, hset, ?_, hnodup⟩
      by_cases hk : k' = k
      · subst hk
        rw [h, Option.some_inj] at h'
        subst h'
        rintro rfl
        exact hfull ⟨hset, h⟩
      · exact hne hk
    · exact hl.apart

theorem Holds.unsubscribe {k' : κ} {ref' fn' : Nat} (h' : l.Holds k' ref' fn') (hl : l.Sound)
    (h : l.topics.get k = some ref) (hne : fn' ≠ fn) :
  (l.unsubscribe k ref fn).Holds k' ref' fn'
  := by
  have hmem : fn' ∈ (l.unsubscribe k ref fn).subscribers k' := by
    rw [subscribers_unsubscribe hl h]
    split
    case isTrue hk =>
      subst hk
      exact List.mem_filter.mpr ⟨h'.2, decide_eq_true hne⟩
    case isFalse => exact h'.2
  refine ⟨?_, hmem⟩
  unfold Listeners.unsubscribe at hmem ⊢
  dsimp only at hmem ⊢
  split
  case isTrue hempty =>
    rw [if_pos hempty] at hmem
    rw [OrderedMap.get_delete]
    split
    case isTrue hk =>
      subst hk
      simp [subscribers, OrderedMap.get_delete] at hmem
    case isFalse => exact h'.1
  case isFalse => exact h'.1

end Listeners
