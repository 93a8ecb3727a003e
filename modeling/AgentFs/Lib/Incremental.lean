import Mathlib.Data.List.Forall2

/-!
# Incremental readers

A reader takes items from the front of a buffer: `next` says that more input is needed, or
gives the first item and what is left, or fails.  What it decides must not change when more
input arrives.  `drain` takes all items of a buffer, `feed` drains after a chunk has arrived,
and the items do not depend on how the input is cut into chunks.
-/

namespace Incremental

variable {α β : Type}

/-- What a reader makes of a buffer. -/
inductive Next (α β : Type) where
  | more
  | item (a : α) (rest : List β)
  | fail (rest : List β)
  deriving DecidableEq, Repr

/-- A reader, whose decisions stay when more input arrives. -/
structure Reader (α β : Type) where
  next : List β → Next α β
  shorter : ∀ {b : List β} {a : α} {rest : List β}, next b = .item a rest → rest.length < b.length
  item_append : ∀ {b : List β} {a : α} {rest : List β} (c : List β),
    next b = .item a rest → next (b ++ c) = .item a (rest ++ c)
  fail_append : ∀ {b rest : List β} (c : List β),
    next b = .fail rest → next (b ++ c) = .fail (rest ++ c)

/-- The items that were taken, the input that is left, and whether the reader failed. -/
structure Drained (α β : Type) where
  items : List α
  rest : List β
  failed : Bool
  deriving DecidableEq, Repr

/-- Put an item before those that were taken. -/
def Drained.cons (a : α) (d : Drained α β) : Drained α β :=
  { d with items := a :: d.items }

namespace Reader

variable (r : Reader α β)

/-- Take items until more input is needed or the reader fails. -/
def drain (b : List β) : Drained α β :=
  match _h : r.next b with
  | .more => ⟨[], b, false⟩
  | .fail rest => ⟨[], rest, true⟩
  | .item a rest => (drain rest).cons a
  termination_by b.length
  decreasing_by exact r.shorter _h

/-- What is taken after a chunk has arrived. -/
def feed (d : Drained α β) (chunk : List β) : Drained α β :=
  ⟨d.items ++ (r.drain (d.rest ++ chunk)).items, (r.drain (d.rest ++ chunk)).rest,
    d.failed || (r.drain (d.rest ++ chunk)).failed⟩

variable {r} {b : List β}

theorem drain_more (h : r.next b = .more) :
  r.drain b = ⟨[], b, false⟩
  := by
  rw [drain]
  split
  · rfl
  · rename_i hfail
    rw [h] at hfail
    cases hfail
  · rename_i hitem
    rw [h] at hitem
    cases hitem

theorem drain_fail {rest : List β} (h : r.next b = .fail rest) :
  r.drain b = ⟨[], rest, true⟩
  := by
  rw [drain]
  split
  · rename_i hmore
    rw [h] at hmore
    cases hmore
  · rename_i hfail
    rw [h] at hfail
    cases hfail
    rfl
  · rename_i hitem
    rw [h] at hitem
    cases hitem

theorem drain_item {a : α} {rest : List β} (h : r.next b = .item a rest) :
  r.drain b = (r.drain rest).cons a
  := by
  rw [drain]
  split
  · rename_i hmore
    rw [h] at hmore
    cases hmore
  · rename_i hfail
    rw [h] at hfail
    cases hfail
  · rename_i hitem
    rw [h] at hitem
    cases hitem
    rfl

theorem feed_cons (a : α) (d : Drained α β) (chunk : List β) :
  r.feed (d.cons a) chunk = (r.feed d chunk).cons a
  := rfl

variable (r)

/-- Draining a buffer that has grown is draining what was left of it. -/
theorem drain_append (b c : List β) (h : (r.drain b).failed = false) :
  r.drain (b ++ c) = r.feed (r.drain b) c
  := by
  induction b using drain.induct r with
  | case1 b hmore =>
      rw [drain_more hmore]
      rfl
  | case2 b rest hfail =>
      rw [drain_fail hfail] at h
      cases h
  | case3 b a rest hitem ih =>
      rw [drain_item hitem] at h ⊢
      rw [drain_item (r.item_append c hitem), feed_cons, ih h]

/-- A reader that has failed fails on more input, too. -/
theorem drain_failed (b c : List β) (h : (r.drain b).failed = true) :
  (r.drain (b ++ c)).failed = true
  := by
  induction b using drain.induct r with
  | case1 b hmore =>
      rw [drain_more hmore] at h
      cases h
  | case2 b rest hfail => rw [drain_fail (r.fail_append c hfail)]
  | case3 b a rest hitem ih =>
      rw [drain_item hitem] at h
      rw [drain_item (r.item_append c hitem)]
      apply ih h

/-- The items do not depend on how the input is cut into chunks. -/
theorem foldl_feed (b : List β) (chunks : List (List β))
    (h : (r.drain (b ++ chunks.flatten)).failed = false) :
  chunks.foldl r.feed (r.drain b) = r.drain (b ++ chunks.flatten)
  := by
  induction chunks generalizing b with
  | nil => simp
  | cons chunk chunks ih =>
      have hb : (r.drain b).failed = false := by
        by_contra hfailed
        rw [Bool.not_eq_false] at hfailed
        rw [r.drain_failed b _ hfailed] at h
        cases h
      rw [List.flatten_cons, ← List.append_assoc] at h ⊢
      rw [List.foldl_cons, ← r.drain_append b chunk hb]
      apply ih (b ++ chunk) h

/-- The concatenation of encoded items is drained into the items. -/
theorem drain_flatten {Encodes : α → List β → Prop}
    (hnext : ∀ {a frame}, Encodes a frame → ∀ rest, r.next (frame ++ rest) = .item a rest)
    (hnil : r.next [] = .more) {items : List α} {frames : List (List β)}
    (h : List.Forall₂ Encodes items frames) :
  r.drain frames.flatten = ⟨items, [], false⟩
  := by
  induction h with
  | nil => apply drain_more hnil
  | cons hencodes hrest ih =>
      rw [List.flatten_cons, drain_item (hnext hencodes _), ih]
      rfl

end Reader

end Incremental
