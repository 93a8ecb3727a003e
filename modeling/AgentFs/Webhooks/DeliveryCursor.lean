import AgentFs.Lib.Base64
import AgentFs.Ops.Utf8
import AgentFs.Share.Links

/-!
# The cursor of the delivery log

`encodeDeliveriesCursor` and `decodeDeliveriesCursor` of `webhooks/deliveries.ts`: a time and an
id as text, in UTF-8 and then Base64.
-/

namespace AgentFs

/-- Position after the last row of a page, newest first. -/
structure DeliveriesCursor where
  createdAt : Nat
  id : Text
  deriving DecidableEq, Repr

def encodeDeliveriesCursor (row : DeliveryRow) : Text :=
  Base64.encodeUrl (textEncode (decimal row.createdAt ++ ':' :: row.id))

/-- The time must be digits, and the id must not be empty.  Times beyond those of a `Date` are
kept as they are, where the code rounds them. -/
def decodeDeliveriesCursor (cursor : Text) : Except OpError DeliveriesCursor :=
  let text := decodeFrom .start (Base64.decode cursor)
  let ms := text.takeWhile (· ≠ ':')
  let id := (text.dropWhile (· ≠ ':')).drop 1
  match digits? ms, id with
  | some createdAt, _ :: _ => .ok ⟨createdAt, id⟩
  | _, _ => .error (.validation
      { message := "Invalid deliveries cursor"
        field := "cursor"
        suggestion := "Pass the nextCursor value from the previous webhook-deliveries call" })

theorem digits?_decimal (n : Nat) :
  digits? (decimal n) = some n
  := by
  have hstep : (fun (n : Nat) (c : Char) => n * 10 + (c.toNat - 48)) =
      fun n c => 10 * n + (c.toNat - '0'.toNat) := by
    funext n c
    rw [Nat.mul_comm]
    rfl
  unfold digits?
  rw [if_pos ⟨Nat.toDigits_ne_nil, List.all_eq_true.mpr fun c hc => isDigit_of_mem_decimal hc⟩, hstep,
    Option.some.injEq]
  exact Nat.ofDigitChars_ten_toDigits

/-- The text of a time and an id is read back. -/
theorem decodeDeliveriesCursor_text (createdAt : Nat) {id : Text} (hid : id ≠ []) :
  decodeDeliveriesCursor (Base64.encodeUrl (textEncode (decimal createdAt ++ ':' :: id))) =
    .ok ⟨createdAt, id⟩
  := by
  have hdigits : ∀ c ∈ decimal createdAt, decide (c ≠ ':') = true := by
    intro c hc
    rw [decide_eq_true_eq]
    rintro rfl
    exact absurd (isDigit_of_mem_decimal hc) (by decide)
  obtain ⟨c, rest, rfl⟩ := List.exists_cons_of_ne_nil hid
  unfold decodeDeliveriesCursor
  rw [Base64.decode_encodeUrl, decodeFrom_textEncode]
  dsimp only
  rw [List.takeWhile_append_of_pos hdigits, List.dropWhile_append_of_pos hdigits,
    List.takeWhile_cons_of_neg (by simp), List.dropWhile_cons_of_neg (by simp), List.append_nil,
    digits?_decimal, List.drop_one, List.tail_cons]

/-- Decoding undoes encoding. -/
theorem decodeDeliveriesCursor_encodeDeliveriesCursor {row : DeliveryRow} (hid : row.id ≠ []) :
  decodeDeliveriesCursor (encodeDeliveriesCursor row) = .ok ⟨row.createdAt, row.id⟩
  := decodeDeliveriesCursor_text row.createdAt hid

end AgentFs
