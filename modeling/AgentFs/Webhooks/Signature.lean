import Mathlib.Data.List.TakeWhile
import AgentFs.Lib.Base64
import AgentFs.Lib.Split
import AgentFs.Webhooks.DeliveryCursor

/-!
# Webhook signatures

`signature.ts`: the signing secrets, `signWebhook` of the sender and `verifyWebhookSignature` of
the receiver.  HMAC-SHA256 is a parameter, by key and message.
-/

namespace AgentFs

/-- 32 random bytes. -/
abbrev RandomKey := { bytes : Bytes // bytes.length = 32 }

def webhookSecretPrefix : Text := "whsec_".toList

def generateWebhookSecret (random : RandomKey) : Text :=
  webhookSecretPrefix ++ Base64.encode random.val

def isBase64Char (c : Char) : Bool :=
  c.isUpper || c.isLower || c.isDigit || c = '+' || c = '/'

/-- `/^[A-Za-z0-9+/]+={0,2}$/`. -/
def IsBase64Text (text : Text) : Prop :=
  let unpadded := (text.reverse.dropWhile (· = '=')).reverse
  unpadded ≠ [] ∧ unpadded.all isBase64Char ∧ text.length ≤ unpadded.length + 2

instance (text : Text) : Decidable (IsBase64Text text) :=
  inferInstanceAs (Decidable (_ ∧ _ ∧ _))

/-- A secret without its first six characters, if they are `whsec_`. -/
def encodedSecret (secret : Text) : Text :=
  if webhookSecretPrefix.isPrefixOf secret then secret.drop webhookSecretPrefix.length else secret

def decodeWebhookSecret (secret : Text) : Option Bytes :=
  if ¬ IsBase64Text (encodedSecret secret) ∨ (encodedSecret secret).length % 4 = 1 then none
  else
    let key := Base64.decode (encodedSecret secret)
    if key.length > 0 then some key else none

/-- `Number.MAX_SAFE_INTEGER`, in seconds. -/
def maxSafeTimestamp : Nat := 9007199254740991

/-- What is signed of a delivery, the timestamp as it is sent. -/
def signedContent (id timestamp body : Text) : Text :=
  id ++ '.' :: (timestamp ++ '.' :: body)

structure WebhookSignatureHeaders where
  id : Text
  timestamp : Text
  signature : Text
  deriving DecidableEq, Repr

section

variable (hmacSha256 : Bytes → Bytes → Bytes)

/-- The `v1` entry for a content. -/
def signatureEntry (key : Bytes) (content : Text) : Text :=
  'v' :: '1' :: ',' :: Base64.encode (hmacSha256 key (textEncode content))

def signWebhook (secret id : Text) (timestampSec : Int) (body : Text) : Except Text Text :=
  match decodeWebhookSecret secret with
  | none => .error "signWebhook: secret is not a valid whsec_<base64> value".toList
  | some key =>
      if timestampSec < 0 ∨ maxSafeTimestamp < timestampSec then
        .error
          "signWebhook: timestampSec must be a non-negative integer (unix seconds)".toList
      else
        .ok (signatureEntry hmacSha256 key (signedContent id (decimal timestampSec.toNat) body))

/-- An entry of the header against the expected digest, byte by byte. -/
def entryMatches (expected : Text) (entry : Text) : Bool :=
  let separatorIndex := entry.findIdx (· = ',')
  if separatorIndex = entry.length ∨ separatorIndex = 0 ∨ entry.take separatorIndex ≠ ['v', '1'] then
    false
  else textEncode (entry.drop (separatorIndex + 1)) = textEncode expected

/-- A number of seconds `t` is within the tolerance of the clock, which reads milliseconds. -/
def WithinTolerance (toleranceSeconds nowMs t : Nat) : Prop :=
  1000 * t ≤ nowMs + 1000 * toleranceSeconds ∧ nowMs ≤ 1000 * t + 1000 * toleranceSeconds

instance (toleranceSeconds nowMs t : Nat) : Decidable (WithinTolerance toleranceSeconds nowMs t) :=
  inferInstanceAs (Decidable (_ ∧ _))

def verifyWebhookSignature (key : Bytes) (body : Text) (headers : WebhookSignatureHeaders)
    (toleranceSeconds : Option Nat) (nowMs : Nat) : Bool :=
  match digits? headers.timestamp with
  | none => false
  | some timestampSeconds =>
      if maxSafeTimestamp < timestampSeconds then false
      else if ¬ WithinTolerance (toleranceSeconds.getD 300) nowMs timestampSeconds then false
      else
        let expected := Base64.encode
          (hmacSha256 key (textEncode (signedContent headers.id headers.timestamp body)))
        (headers.signature.splitOn ' ').any (entryMatches expected)

end

/-! ### Secrets -/

theorem isBase64Char_standardChar {n : Nat} (hn : n < 64) :
  isBase64Char (Base64.standardChar n) = true
  := by
  revert n
  decide

theorem dropWhile_padding {text : Text} (hne : ∀ c ∈ text, c ≠ '=') (n : Nat) :
  ((text ++ List.replicate n '=').reverse.dropWhile (· = '=')).reverse = text
  := by
  have hdrop : (List.replicate n '=').dropWhile (fun c => decide (c = '=')) = [] := by
    rw [List.dropWhile_eq_nil_iff]
    intro c hc
    rw [List.eq_of_mem_replicate hc, decide_eq_true_eq]
  rw [List.reverse_append, List.reverse_replicate, List.dropWhile_append, hdrop, List.isEmpty_nil,
    if_pos rfl, List.dropWhile_eq_self_iff.mpr, List.reverse_reverse]
  intro hlength
  rw [decide_eq_true_eq]
  exact hne _ (List.mem_reverse.mp (List.getElem_mem hlength))

/-- An encoding of some bytes is accepted. -/
theorem isBase64Text_encode {bytes : Bytes} (hne : bytes ≠ []) :
  IsBase64Text (Base64.encode bytes)
  := by
  have hchars : ∀ c ∈ (Base64.sextets bytes).map Base64.standardChar, isBase64Char c = true := by
    intro c hc
    obtain ⟨n, hn, rfl⟩ := List.mem_map.mp hc
    exact isBase64Char_standardChar (Base64.sextets_lt bytes n hn)
  have hpadding : ∀ c ∈ (Base64.sextets bytes).map Base64.standardChar, c ≠ '=' := by
    rintro c hc rfl
    exact absurd (hchars _ hc) (by decide)
  have hlength : 0 < bytes.length := List.length_pos_iff.mpr hne
  unfold IsBase64Text Base64.encode
  rw [dropWhile_padding hpadding]
  refine ⟨?_, List.all_eq_true.mpr hchars, ?_⟩
  · rw [← List.length_pos_iff, List.length_map, Base64.length_sextets]
    omega
  · rw [List.length_append, List.length_replicate]
    omega

theorem encodedSecret_generate (random : RandomKey) :
  encodedSecret (generateWebhookSecret random) = Base64.encode random.val
  := by
  rw [encodedSecret, generateWebhookSecret, if_pos (List.isPrefixOf_iff_prefix.mpr
    (List.prefix_append _ _)), List.drop_left]

/-- A new secret decodes to its random bytes. -/
theorem decodeWebhookSecret_generate (random : RandomKey) :
  decodeWebhookSecret (generateWebhookSecret random) = some random.val
  := by
  have hlength : random.val.length = 32 := random.property
  have hne : random.val ≠ [] := by
    intro hnil
    rw [hnil] at hlength
    cases hlength
  have hmod : (Base64.encode random.val).length % 4 ≠ 1 := by
    rw [Base64.length_encode]
    omega
  unfold decodeWebhookSecret
  rw [encodedSecret_generate, if_neg (by simp [isBase64Text_encode hne, hmod]), Base64.decode_encode]
  exact if_pos (by omega)

/-! ### Verification -/

section

variable {hmacSha256 : Bytes → Bytes → Bytes}

theorem entryMatches_iff {expected entry : Text} :
  entryMatches expected entry = true ↔ entry = 'v' :: '1' :: ',' :: expected
  := by
  unfold entryMatches
  constructor
  · intro h
    dsimp only at h
    split at h
    · cases h
    · rename_i hcut
      rw [not_or, not_or, not_not] at hcut
      obtain ⟨hfound, -, htake⟩ := hcut
      have hlt : entry.findIdx (· = ',') < entry.length :=
        Nat.lt_of_le_of_ne List.findIdx_le_length hfound
      have hcomma := List.findIdx_getElem (w := hlt)
      rw [decide_eq_true_eq] at h hcomma
      rw [← List.take_append_drop (entry.findIdx (· = ',')) entry, htake,
        List.drop_eq_getElem_cons hlt, hcomma, textEncode_injective h]
      rfl
  · rintro rfl
    rw [if_neg (by simp [List.findIdx_cons])]
    simp [List.findIdx_cons]

/-- What the receiver accepts: a time within the tolerance, and an entry that it would sign. -/
theorem verifyWebhookSignature_iff {key : Bytes} {body : Text} {headers : WebhookSignatureHeaders}
    {toleranceSeconds : Option Nat} {nowMs : Nat} :
  verifyWebhookSignature hmacSha256 key body headers toleranceSeconds nowMs = true ↔
    (∃ t, digits? headers.timestamp = some t ∧ t ≤ maxSafeTimestamp ∧
      WithinTolerance (toleranceSeconds.getD 300) nowMs t) ∧
    signatureEntry hmacSha256 key (signedContent headers.id headers.timestamp body) ∈
      headers.signature.splitOn ' '
  := by
  unfold verifyWebhookSignature signatureEntry
  cases digits? headers.timestamp with
  | none => simp
  | some t =>
      by_cases hsafe : maxSafeTimestamp < t
      · simp [hsafe, Nat.not_le_of_lt hsafe]
      · by_cases htolerance : WithinTolerance (toleranceSeconds.getD 300) nowMs t
        · simp [hsafe, htolerance, entryMatches_iff, Nat.le_of_not_lt hsafe]
        · simp [hsafe, htolerance]

theorem signatureEntry_injective {key key' : Bytes} {content content' : Text}
    (h : signatureEntry hmacSha256 key content = signatureEntry hmacSha256 key' content') :
  hmacSha256 key (textEncode content) = hmacSha256 key' (textEncode content')
  := by
  simp only [signatureEntry, List.cons.injEq, true_and] at h
  exact Base64.encode_injective h

/-- A signature is one entry. -/
theorem splitOn_signatureEntry (key : Bytes) (content : Text) :
  (signatureEntry hmacSha256 key content).splitOn ' ' = [signatureEntry hmacSha256 key content]
  := by
  rw [List.splitOn]
  apply List.splitOnP_eq_singleton
  intro c hc
  rw [beq_eq_false_iff_ne]
  rintro rfl
  simp only [signatureEntry, List.mem_cons] at hc
  obtain hc | hc | hc | hc := hc
  · cases hc
  · cases hc
  · cases hc
  · obtain ⟨n, hn, halphabet⟩ | hpadding := Base64.mem_encode hc
    · have hchar := isBase64Char_standardChar hn
      rw [halphabet] at hchar
      exact absurd hchar (by decide)
    · cases hpadding

/-- Ids without a dot and times of digits are read off the content. -/
theorem signedContent_inj {id id' timestamp timestamp' body body' : Text} (hid : '.' ∉ id)
    (hid' : '.' ∉ id') (htimestamp : '.' ∉ timestamp) (htimestamp' : '.' ∉ timestamp')
    (h : signedContent id timestamp body = signedContent id' timestamp' body') :
  id = id' ∧ timestamp = timestamp' ∧ body = body'
  := by
  obtain ⟨hids, hrest⟩ := List.append_cons_inj hid hid' h
  obtain ⟨htimestamps, hbodies⟩ := List.append_cons_inj htimestamp htimestamp' hrest
  exact ⟨hids, htimestamps, hbodies⟩

theorem not_dot_of_digits? {text : Text} {n : Nat} (h : digits? text = some n) :
  '.' ∉ text
  := by
  unfold digits? at h
  split at h
  · rename_i hdigits
    intro hdot
    exact absurd (List.all_eq_true.mp hdigits.2 _ hdot) (by decide)
  · cases h

theorem signWebhook_ok_iff {secret id body signature : Text} {timestampSec : Int} :
  signWebhook hmacSha256 secret id timestampSec body = .ok signature ↔
    (∃ key, decodeWebhookSecret secret = some key ∧ signature =
      signatureEntry hmacSha256 key (signedContent id (decimal timestampSec.toNat) body)) ∧
    0 ≤ timestampSec ∧ timestampSec ≤ maxSafeTimestamp
  := by
  unfold signWebhook
  cases decodeWebhookSecret secret with
  | none => simp
  | some key =>
      by_cases hrange : timestampSec < 0 ∨ maxSafeTimestamp < timestampSec
      · simp only [if_pos hrange, reduceCtorEq, Option.some.injEq, exists_eq_left', false_iff]
        omega
      · simp only [if_neg hrange, Except.ok.injEq, Option.some.injEq, exists_eq_left']
        constructor
        · rintro rfl
          exact ⟨rfl, by omega, by omega⟩
        · rintro ⟨rfl, -⟩
          rfl

/-- The receiver of a signature accepts it, among others too, exactly within the tolerance. -/
theorem verify_of_sign {secret id body signature : Text} {timestampSec : Int} {key : Bytes}
    {headers : WebhookSignatureHeaders} (toleranceSeconds : Option Nat) (nowMs : Nat)
    (hsign : signWebhook hmacSha256 secret id timestampSec body = .ok signature)
    (hkey : decodeWebhookSecret secret = some key) (hid : headers.id = id)
    (htimestamp : headers.timestamp = decimal timestampSec.toNat)
    (hentry : signature ∈ headers.signature.splitOn ' ') :
  verifyWebhookSignature hmacSha256 key body headers toleranceSeconds nowMs = true ↔
    WithinTolerance (toleranceSeconds.getD 300) nowMs timestampSec.toNat
  := by
  obtain ⟨⟨key', hkey', rfl⟩, hlow, hhigh⟩ := signWebhook_ok_iff.mp hsign
  rw [hkey, Option.some.injEq] at hkey'
  subst hkey' hid
  rw [verifyWebhookSignature_iff, htimestamp, digits?_decimal]
  constructor
  · rintro ⟨⟨t, ht, -, htolerance⟩, -⟩
    cases ht
    exact htolerance
  · intro htolerance
    exact ⟨⟨_, rfl, by omega, htolerance⟩, hentry⟩

/-- A signature that is accepted with anything else has a collision of digests: of what was signed
and what is verified. -/
theorem digest_of_verify {secret id body signature : Text} {timestampSec : Int} {signer key : Bytes}
    {body' : Text} {headers : WebhookSignatureHeaders} {toleranceSeconds : Option Nat} {nowMs : Nat}
    (hsign : signWebhook hmacSha256 secret id timestampSec body = .ok signature)
    (hsigner : decodeWebhookSecret secret = some signer) (hsignature : headers.signature = signature)
    (hverify : verifyWebhookSignature hmacSha256 key body' headers toleranceSeconds nowMs = true)
    (hid : '.' ∉ id) (hid' : '.' ∉ headers.id) :
  let signed := signedContent id (decimal timestampSec.toNat) body
  let verified := signedContent headers.id headers.timestamp body'
  hmacSha256 key (textEncode verified) = hmacSha256 signer (textEncode signed) ∧
    (verified = signed →
      headers.id = id ∧ headers.timestamp = decimal timestampSec.toNat ∧ body' = body)
  := by
  obtain ⟨⟨signer', hsigner', rfl⟩, -⟩ := signWebhook_ok_iff.mp hsign
  obtain ⟨⟨t, ht, -⟩, hentry⟩ := verifyWebhookSignature_iff.mp hverify
  rw [hsigner, Option.some.injEq] at hsigner'
  subst hsigner'
  rw [hsignature, splitOn_signatureEntry, List.mem_singleton] at hentry
  refine ⟨signatureEntry_injective hentry, ?_⟩
  exact signedContent_inj hid' hid (not_dot_of_digits? ht) (not_dot_of_digits? (digits?_decimal _))

/-- What the signatures of the deliveries are good for. -/
structure SignatureLaw (hmacSha256 : Bytes → Bytes → Bytes) : Prop where
  /-- A new secret signs. -/
  signs : ∀ random id (timestampSec : Int) body, 0 ≤ timestampSec → timestampSec ≤ maxSafeTimestamp →
    ∃ signature,
      signWebhook hmacSha256 (generateWebhookSecret random) id timestampSec body = .ok signature
  /-- The holder of the secret accepts the signature, alone or while the secret is rotated, exactly
  within the tolerance. -/
  verifies : ∀ random id timestampSec body signature headers toleranceSeconds nowMs,
    signWebhook hmacSha256 (generateWebhookSecret random) id timestampSec body = .ok signature →
    headers.id = id → headers.timestamp = decimal timestampSec.toNat →
    signature ∈ headers.signature.splitOn ' ' →
    (verifyWebhookSignature hmacSha256 random.val body headers toleranceSeconds nowMs = true ↔
      WithinTolerance (toleranceSeconds.getD 300) nowMs timestampSec.toNat)
  /-- Nobody accepts it with another id, time or body, but for a collision of the digests of the
  two contents; the ids have no dots. -/
  bound : ∀ random id timestampSec body signature key headers body' toleranceSeconds nowMs,
    signWebhook hmacSha256 (generateWebhookSecret random) id timestampSec body = .ok signature →
    headers.signature = signature → '.' ∉ id → '.' ∉ headers.id →
    verifyWebhookSignature hmacSha256 key body' headers toleranceSeconds nowMs = true →
    let signed := signedContent id (decimal timestampSec.toNat) body
    let verified := signedContent headers.id headers.timestamp body'
    hmacSha256 key (textEncode verified) = hmacSha256 random.val (textEncode signed) ∧
      (verified = signed →
        headers.id = id ∧ headers.timestamp = decimal timestampSec.toNat ∧ body' = body)

/-- Signing and verifying agree, whatever the digest. -/
theorem signature_law (hmacSha256 : Bytes → Bytes → Bytes) :
  SignatureLaw hmacSha256
  where
    signs := by
      intro random id timestampSec body hlow hhigh
      exact ⟨_, signWebhook_ok_iff.mpr
        ⟨⟨random.val, decodeWebhookSecret_generate random, rfl⟩, hlow, hhigh⟩⟩
    verifies := by
      intro random id timestampSec body signature headers toleranceSeconds nowMs hsign
      exact verify_of_sign toleranceSeconds nowMs hsign (decodeWebhookSecret_generate random)
    bound := by
      intro random id timestampSec body signature key headers body' toleranceSeconds nowMs hsign
        hsignature hid hid' hverify
      exact digest_of_verify hsign (decodeWebhookSecret_generate random) hsignature hverify hid hid'

end

end AgentFs
