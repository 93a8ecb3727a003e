import Mathlib.Data.List.TakeWhile
import AgentFs.Webhooks.SecretKey
import AgentFs.Webhooks.Stranded
import AgentFs.Webhooks.Worker

/-!
# The key of the webhook secrets, over all runs

However the processes interleave, fail and restart, they agree on one key: the one that the
environment or the key file gives to a process that is started later.
-/

namespace AgentFs

/-! ### The cipher -/

section

variable {aes : AesGcm}

theorem assertKey_of_length {key : Bytes} (hkey : key.length = aesKeyBytes) :
  assertKey key = .ok ()
  := by
  rw [assertKey, if_neg (fun h => h hkey)]

theorem encryptSecret_eq (plaintext : Text) {key : Bytes} (iv : Bytes)
    (hkey : key.length = aesKeyBytes) :
  encryptSecret aes plaintext key iv = .ok (Base64.encode (iv ++
    (aes.encrypt key iv (textEncode plaintext)).1 ++ (aes.encrypt key iv (textEncode plaintext)).2))
  := by
  have htag := aes.length_tag key iv (textEncode plaintext)
  simp only [encryptSecret, assertKey_of_length hkey, bind, Except.bind, htag, ne_eq,
    not_true_eq_false, if_false, pure, Except.pure]

/-- What is encrypted is decrypted with the same key. -/
theorem decryptSecret_of_encryptSecret {plaintext encoded : Text} {key iv : Bytes}
    (hkey : key.length = aesKeyBytes) (hiv : iv.length = ivBytes)
    (hencrypt : encryptSecret aes plaintext key iv = .ok encoded) :
  decryptSecret aes encoded key = .ok plaintext
  := by
  rw [encryptSecret_eq _ _ hkey, Except.ok.injEq] at hencrypt
  subst hencrypt
  have htag := aes.length_tag key iv (textEncode plaintext)
  have hopen := aes.decrypt_encrypt key iv (textEncode plaintext) hkey hiv
  generalize aes.encrypt key iv (textEncode plaintext) = payload at htag hopen
  obtain ⟨ciphertext, authTag⟩ := payload
  dsimp only at htag hopen
  have hlength : (iv ++ ciphertext ++ authTag).length = ivBytes + ciphertext.length + tagBytes := by
    rw [List.length_append, List.length_append, hiv, htag]
  have hcut : (iv ++ ciphertext ++ authTag).length - tagBytes = (iv ++ ciphertext).length := by
    rw [hlength, List.length_append, hiv, Nat.add_sub_cancel]
  have htake : (iv ++ ciphertext ++ authTag).take ivBytes = iv := by
    rw [List.append_assoc, ← hiv, List.take_left]
  have hdrop : (iv ++ ciphertext).drop ivBytes = ciphertext := by
    rw [← hiv, List.drop_left]
  simp only [decryptSecret, assertKey_of_length hkey, bind, Except.bind, Base64.decode_encode, hcut,
    htake, List.drop_left, List.take_left, hdrop, hopen, decodeFrom_textEncode, pure, Except.pure]
  exact if_neg (by omega)

end

/-! ### The text of a key -/

theorem length_hexBytes (text : Text) :
  (hexBytes text).length = text.length / 2
  := by
  induction text using hexBytes.induct with
  | case1 high low text ih =>
      simp only [hexBytes, List.length_cons, ih]
      omega
  | case2 text hpair =>
      match text, hpair with
      | [], _ => rfl
      | [_], _ =>
          simp only [hexBytes, List.length_cons, List.length_nil, Nat.reduceAdd, Nat.reduceDiv]
      | high :: low :: text, hpair => exact (hpair high low text rfl).elim

/-- The key that a text gives. -/
def decodeKey (content : Text) : Option Bytes :=
  (decodeAndValidate [] content).toOption

theorem decodeKey_eq (source content : Text) :
  (decodeAndValidate source content).toOption = decodeKey content
  := by
  unfold decodeKey decodeAndValidate
  dsimp only
  split
  · rfl
  · split
    · rfl
    · rfl

theorem decodeKey_of_ok {source content : Text} {key : Bytes}
    (h : decodeAndValidate source content = .ok key) :
  decodeKey content = some key
  := by
  rw [← decodeKey_eq source, h]
  rfl

theorem decodeAndValidate_of_decodeKey {content : Text} {key : Bytes}
    (h : decodeKey content = some key) (source : Text) :
  decodeAndValidate source content = .ok key
  := by
  rw [← decodeKey_eq source] at h
  cases hdecode : decodeAndValidate source content with
  | error message =>
      rw [hdecode] at h
      cases h
  | ok key' =>
      rw [hdecode] at h
      cases h
      rfl

theorem length_of_decodeKey {content : Text} {key : Bytes} (h : decodeKey content = some key) :
  key.length = aesKeyBytes
  := by
  have hdecode := decodeAndValidate_of_decodeKey h []
  unfold decodeAndValidate at hdecode
  dsimp only at hdecode
  split at hdecode
  · rename_i hhex
    cases hdecode
    rw [length_hexBytes, hhex.1]
    rfl
  · split at hdecode
    · rename_i hlength
      cases hdecode
      exact hlength
    · cases hdecode

theorem not_isWhiteSpace_of_mem_encode {bytes : Bytes} {c : Char} (hc : c ∈ Base64.encode bytes) :
  ¬ IsWhiteSpace c
  := by
  have halphabet : ∀ n < 64, ¬ IsWhiteSpace (Base64.standardChar n) := by decide
  obtain ⟨n, hn, rfl⟩ | rfl := Base64.mem_encode hc
  · exact halphabet n hn
  · decide

theorem trim_of_not_isWhiteSpace {text : Text} (h : ∀ c ∈ text, ¬ IsWhiteSpace c) :
  trim text = text
  := by
  have hdrop : ∀ {text : Text}, (∀ c ∈ text, ¬ IsWhiteSpace c) →
      text.dropWhile (fun c => IsWhiteSpace c) = text := by
    intro text h
    rw [List.dropWhile_eq_self_iff]
    intro hpos
    rw [decide_eq_true_eq]
    exact h _ (List.getElem_mem hpos)
  unfold trim
  rw [hdrop h, hdrop, List.reverse_reverse]
  intro c hc
  exact h c (List.mem_reverse.mp hc)

/-- A key file that is cut off gives its key or none. -/
theorem decodeKey_cut {content rest : Text} {generated : RandomKey}
    (h : content ++ rest = Base64.encode generated.val) :
  decodeKey content =
    if (Base64.decode content).length = aesKeyBytes then some generated.val else none
  := by
  have hspace : ∀ c ∈ content, ¬ IsWhiteSpace c := by
    intro c hc
    have hmem : c ∈ Base64.encode generated.val := by
      rw [← h]
      exact List.mem_append_left _ hc
    exact not_isWhiteSpace_of_mem_encode hmem
  have hlength : content.length ≤ 44 := by
    have hencode := congrArg List.length h
    rw [List.length_append, Base64.length_encode, generated.property] at hencode
    omega
  have hhex : ¬ IsHex32 content := by
    intro hhex
    have := hhex.1
    omega
  unfold decodeKey decodeAndValidate
  rw [trim_of_not_isWhiteSpace hspace]
  dsimp only
  rw [if_neg hhex]
  split
  · rename_i hdecode
    rw [Base64.decode_of_cut h (hdecode.trans generated.property.symm)]
    rfl
  · rfl

theorem length_randomKey (generated : RandomKey) :
  generated.val.length = aesKeyBytes
  := generated.property

theorem decodeKey_encode (generated : RandomKey) :
  decodeKey (Base64.encode generated.val) = some generated.val
  := by
  rw [decodeKey_cut (List.append_nil _), Base64.decode_encode,
    if_pos (length_randomKey generated)]

/-- More of the file does not change the key. -/
theorem decodeKey_append {content text rest : Text} {generated : RandomKey} {key : Bytes}
    (h : content ++ text ++ rest = Base64.encode generated.val)
    (hdecode : decodeKey content = some key) :
  decodeKey (content ++ text) = some key
  := by
  have hcut : content ++ (text ++ rest) = Base64.encode generated.val := by
    rw [← List.append_assoc, h]
  rw [decodeKey_cut hcut] at hdecode
  have hshort := (Base64.decode_append content text).length_le
  have hlong := (Base64.decode_append (content ++ text) rest).length_le
  rw [h, Base64.decode_encode, length_randomKey] at hlong
  split at hdecode
  · rename_i hlength
    rw [hlength] at hshort
    rw [decodeKey_cut h, if_pos (Nat.le_antisymm hlong hshort), hdecode]
  · cases hdecode

/-! ### The files -/

/-- The key that a process finds that is started now. -/
def foundKey (env : KeyEnv) (files : Text → Option Text) : Option Bytes :=
  match env.secretsKey.filter (· ≠ []), env.secretsKeyFile.filter (· ≠ []) with
  | some text, _ => decodeKey text
  | none, some path => (files path).bind decodeKey
  | none, none =>
      if env.dbPath = ":memory:".toList then none else (files env.keyFilePath).bind decodeKey

/-- Only the key file changes: it appears, or it grows without a change of its key. -/
structure FilesExtend (env : KeyEnv) (files files' : Text → Option Text) : Prop where
  others : ∀ path, path ≠ env.keyFilePath → files' path = files path
  keyFile : ∀ content, files env.keyFilePath = some content →
    ∃ content', files' env.keyFilePath = some content' ∧
      ∀ key, decodeKey content = some key → decodeKey content' = some key

namespace FilesExtend

variable {env : KeyEnv} {files files' files'' : Text → Option Text}

theorem refl :
  FilesExtend env files files
  := ⟨fun _ _ => rfl, fun content h => ⟨content, h, fun _ h => h⟩⟩

theorem trans (h : FilesExtend env files files') (h' : FilesExtend env files' files'') :
  FilesExtend env files files''
  := by
  constructor
  · intro path hpath
    rw [h'.others path hpath, h.others path hpath]
  · intro content hcontent
    obtain ⟨content', hcontent', hkey⟩ := h.keyFile content hcontent
    obtain ⟨content'', hcontent'', hkey'⟩ := h'.keyFile content' hcontent'
    exact ⟨content'', hcontent'', fun key hdecode => hkey' key (hkey key hdecode)⟩

theorem of_create (habsent : files env.keyFilePath = none) (content : Text) :
  FilesExtend env files (Function.update files env.keyFilePath (some content))
  := by
  constructor
  · intro path hpath
    exact Function.update_of_ne hpath _ _
  · intro content' hcontent'
    rw [habsent] at hcontent'
    cases hcontent'

theorem of_write {content content' : Text} (hcontent : files env.keyFilePath = some content)
    (hkey : ∀ key, decodeKey content = some key → decodeKey content' = some key) :
  FilesExtend env files (Function.update files env.keyFilePath (some content'))
  := by
  constructor
  · intro path hpath
    exact Function.update_of_ne hpath _ _
  · intro content₀ hcontent₀
    rw [hcontent, Option.some.injEq] at hcontent₀
    subst hcontent₀
    exact ⟨content', Function.update_self _ _ _, hkey⟩

theorem absent (h : FilesExtend env files files') (habsent : files' env.keyFilePath = none) :
  files env.keyFilePath = none
  := by
  cases hcontent : files env.keyFilePath with
  | none => rfl
  | some content =>
      obtain ⟨content', hcontent', -⟩ := h.keyFile content hcontent
      rw [hcontent'] at habsent
      cases habsent

theorem bind_decodeKey (h : FilesExtend env files files') {path : Text} {key : Bytes}
    (hkey : (files path).bind decodeKey = some key) :
  (files' path).bind decodeKey = some key
  := by
  obtain ⟨content, hcontent, hdecode⟩ := Option.bind_eq_some_iff.mp hkey
  by_cases hpath : path = env.keyFilePath
  · subst hpath
    obtain ⟨content', hcontent', hkeep⟩ := h.keyFile content hcontent
    rw [hcontent']
    exact hkeep key hdecode
  · rw [h.others path hpath]
    exact hkey

/-- The key that is found stays. -/
theorem foundKey (h : FilesExtend env files files') {key : Bytes}
    (hkey : foundKey env files = some key) :
  foundKey env files' = some key
  := by
  unfold AgentFs.foundKey at hkey ⊢
  split at hkey
  · exact hkey
  · exact h.bind_decodeKey hkey
  · split at hkey
    · cases hkey
    · rename_i hmemory
      rw [if_neg hmemory]
      exact h.bind_decodeKey hkey

end FilesExtend

theorem length_of_foundKey {env : KeyEnv} {files : Text → Option Text} {key : Bytes}
    (h : foundKey env files = some key) :
  key.length = aesKeyBytes
  := by
  unfold foundKey at h
  split at h
  · exact length_of_decodeKey h
  · obtain ⟨content, -, hdecode⟩ := Option.bind_eq_some_iff.mp h
    exact length_of_decodeKey hdecode
  · split at h
    · cases h
    · obtain ⟨content, -, hdecode⟩ := Option.bind_eq_some_iff.mp h
      exact length_of_decodeKey hdecode

/-! ### A process -/

/-- A call is where the environment sends it. -/
def KeyPhase.Placed (env : KeyEnv) : KeyPhase → Prop
  | .idle => True
  | .findEnvFile path | .readEnvFile path =>
      env.secretsKey.filter (· ≠ []) = none ∧ env.secretsKeyFile.filter (· ≠ []) = some path
  | .findKeyFile _ | .readKeyFile | .openKeyFile _ | .writeKeyFile _ _ =>
      env.secretsKey.filter (· ≠ []) = none ∧ env.secretsKeyFile.filter (· ≠ []) = none ∧
        env.dbPath ≠ ":memory:".toList

/-- The call may still come to generate a key. -/
def KeyPhase.MayGenerate : KeyPhase → Prop
  | .findKeyFile allowGenerate => allowGenerate = true
  | .openKeyFile _ => True
  | _ => False

def KeyPhase.IsWriting : KeyPhase → Prop
  | .writeKeyFile _ _ => True
  | _ => False

/-- What holds of each process of a database. -/
structure ProcessInv (env : KeyEnv) (files : Text → Option Text) (db : Db) (p : KeyProcess) :
    Prop where
  placed : p.phase.Placed env
  found : ∀ key, p.cachedKey = some key → foundKey env files = some key
  /-- The file holds what is written so far. -/
  writes : ∀ generated rest, p.phase = .writeKeyFile generated rest →
    ∃ content, files env.keyFilePath = some content ∧ content ++ rest = Base64.encode generated.val
  /-- A key is generated for an empty table only. -/
  empty : p.phase.MayGenerate → files env.keyFilePath = none → db.subscriptions = []

namespace ProcessInv

variable {env : KeyEnv} {files : Text → Option Text} {db : Db} {p : KeyProcess}

theorem fresh :
  ProcessInv env files db .fresh
  where
    placed := trivial
    found := by rintro key ⟨⟩
    writes := by rintro generated rest ⟨⟩
    empty := False.elim

theorem of_settle (hfound : ∀ key, p.cachedKey = some key → foundKey env files = some key)
    {result : Except Text Bytes}
    (hresult : ∀ key, result = .ok key → foundKey env files = some key) :
  ProcessInv env files db (p.settle result)
  := by
  cases result with
  | error message => exact ⟨trivial, hfound, by rintro generated rest ⟨⟩, False.elim⟩
  | ok key =>
      refine ⟨trivial, ?_, by rintro generated rest ⟨⟩, False.elim⟩
      rintro key' ⟨⟩
      exact hresult key rfl

theorem settle (h : ProcessInv env files db p) {result : Except Text Bytes}
    (hresult : ∀ key, result = .ok key → foundKey env files = some key) :
  ProcessInv env files db (p.settle result)
  := of_settle h.found hresult

theorem settle_error (h : ProcessInv env files db p) (message : Text) :
  ProcessInv env files db (p.settle (.error message))
  := h.settle (by rintro key ⟨⟩)

theorem enter (h : ProcessInv env files db p) {phase : KeyPhase} (hplaced : phase.Placed env)
    (hwriting : ¬ phase.IsWriting)
    (hempty : phase.MayGenerate → files env.keyFilePath = none → db.subscriptions = []) :
  ProcessInv env files db (p.enter phase)
  where
    placed := hplaced
    found := h.found
    writes := by
      rintro generated rest hphase
      have hwriting' : phase = .writeKeyFile generated rest := hphase
      rw [hwriting'] at hwriting
      exact absurd trivial hwriting
    empty := hempty

/-- What others do to the files. -/
theorem extend (h : ProcessInv env files db p) {files' : Text → Option Text}
    (hextend : FilesExtend env files files') (hwriting : p.phase.IsWriting → files' = files) :
  ProcessInv env files' db p
  where
    placed := h.placed
    found := fun key hkey => hextend.foundKey (h.found key hkey)
    writes := by
      intro generated rest hphase
      rw [hwriting (by rw [hphase]; trivial)]
      exact h.writes generated rest hphase
    empty := fun hmay habsent => h.empty hmay (hextend.absent habsent)

theorem foundKey_of_mayGenerate {phase : KeyPhase} (hplaced : phase.Placed env)
    (hmay : phase.MayGenerate) (habsent : files env.keyFilePath = none) :
  foundKey env files = none
  := by
  have hsources : env.secretsKey.filter (· ≠ []) = none ∧
      env.secretsKeyFile.filter (· ≠ []) = none := by
    cases phase with
    | findKeyFile allowGenerate => exact ⟨hplaced.1, hplaced.2.1⟩
    | openKeyFile generated => exact ⟨hplaced.1, hplaced.2.1⟩
    | idle => exact hmay.elim
    | findEnvFile path => exact hmay.elim
    | readEnvFile path => exact hmay.elim
    | readKeyFile => exact hmay.elim
    | writeKeyFile generated rest => exact hmay.elim
  unfold foundKey
  rw [hsources.1, hsources.2, habsent]
  exact ite_self _

/-- What is done to the database: it gets its first row from a process with a key. -/
theorem database (h : ProcessInv env files db p) {db' : Db}
    (hempty : db.subscriptions = [] → db'.subscriptions ≠ [] →
      ∃ key, AgentFs.foundKey env files = some key) :
  ProcessInv env files db' p
  where
    placed := h.placed
    found := h.found
    writes := h.writes
    empty := by
      intro hmay habsent
      by_contra hrows
      obtain ⟨key, hkey⟩ := hempty (h.empty hmay habsent) hrows
      rw [foundKey_of_mayGenerate h.placed hmay habsent] at hkey
      cases hkey

theorem beginCall (h : ProcessInv env files db p) :
  ProcessInv env files db (beginCall env db p)
  := by
  unfold AgentFs.beginCall
  split
  · rename_i key hphase hkey
    apply h.settle
    rintro key' ⟨⟩
    exact h.found key hkey
  · split
    · rename_i text hsecret
      apply h.settle
      intro key hdecode
      unfold foundKey
      rw [hsecret]
      exact decodeKey_of_ok hdecode
    · rename_i path hsecret hpath
      exact h.enter ⟨hsecret, hpath⟩ id False.elim
    · rename_i hsecret hpath
      split
      · exact h.settle_error _
      · rename_i hmemory
        refine h.enter ⟨hsecret, hpath, hmemory⟩ id ?_
        intro hmay _
        simpa [KeyPhase.MayGenerate, hasEncryptedRows] using hmay
  · exact h

theorem foundKey_of_read {path source : Text} {x : KeyInput} {key : Bytes}
    (hread : (readKeyText files path x >>= decodeAndValidate source) = .ok key) :
  (files path).bind decodeKey = some key
  := by
  unfold readKeyText at hread
  split at hread
  · cases hread
  · rename_i hfailed hcontent
    rw [hcontent]
    exact decodeKey_of_ok hread
  · cases hread

theorem foundKey_of_envFile {path : Text} (h : (KeyPhase.readEnvFile path).Placed env) :
  foundKey env files = (files path).bind decodeKey
  := by
  unfold foundKey
  rw [h.1, h.2]

theorem foundKey_of_keyFile (h : KeyPhase.readKeyFile.Placed env) :
  foundKey env files = (files env.keyFilePath).bind decodeKey
  := by
  unfold foundKey
  rw [h.1, h.2.1]
  exact if_neg h.2.2

/-- What one access of the disk does. -/
theorem advanceCall (h : ProcessInv env files db p) (x : KeyInput) :
  FilesExtend env files (advanceCall env x files p).1 ∧
    ProcessInv env (AgentFs.advanceCall env x files p).1 db (AgentFs.advanceCall env x files p).2
  := by
  have hplaced := h.placed
  unfold AgentFs.advanceCall
  split
  · exact ⟨.refl, h⟩
  · rename_i path hphase
    rw [hphase] at hplaced
    split
    · exact ⟨.refl, h.enter hplaced id False.elim⟩
    · exact ⟨.refl, h.settle_error _⟩
  · rename_i path hphase
    rw [hphase] at hplaced
    refine ⟨.refl, h.settle ?_⟩
    intro key hread
    rw [foundKey_of_envFile hplaced, foundKey_of_read hread]
  · rename_i allowGenerate hphase
    rw [hphase] at hplaced
    split
    · exact ⟨.refl, h.enter hplaced id False.elim⟩
    · split
      · rename_i hallow
        refine ⟨.refl, h.enter hplaced id fun _ => h.empty ?_⟩
        rw [hphase]
        exact hallow
      · exact ⟨.refl, h.settle_error _⟩
  · rename_i hphase
    rw [hphase] at hplaced
    refine ⟨.refl, h.settle ?_⟩
    intro key hread
    rw [foundKey_of_keyFile hplaced, foundKey_of_read hread]
  · rename_i generated hphase
    rw [hphase] at hplaced
    split
    · exact ⟨.refl, h.settle_error _⟩
    · exact ⟨.refl, h.enter hplaced id False.elim⟩
    · rename_i habsent
      have hextend : FilesExtend env files _ := .of_create habsent []
      refine ⟨hextend, hplaced, fun key hkey => hextend.foundKey (h.found key hkey), ?_, False.elim⟩
      rintro generated' rest ⟨⟩
      exact ⟨[], Function.update_self _ _ _, rfl⟩
  · rename_i generated rest hphase
    rw [hphase] at hplaced
    obtain ⟨content, hcontent, hrest⟩ := h.writes generated rest hphase
    split
    · exact ⟨.refl, h.settle_error _⟩
    · have hcut : content ++ rest.take x.written ++ rest.drop x.written =
          Base64.encode generated.val := by
        rw [List.append_assoc, List.take_append_drop, hrest]
      have hextend := FilesExtend.of_write hcontent
        (fun key hdecode => decodeKey_append hcut hdecode)
      rw [hcontent, Option.map_some]
      have hfound := fun key hkey => hextend.foundKey (h.found key hkey)
      refine ⟨hextend, ?_⟩
      split
      · rename_i hwritten
        rw [List.isEmpty_iff] at hwritten
        dsimp only
        apply of_settle hfound
        rintro key ⟨⟩
        rw [foundKey_of_keyFile hplaced, Function.update_self, Option.bind_some]
        rw [hwritten, List.append_nil] at hcut
        rw [hcut, decodeKey_encode]
      · refine ⟨hplaced, hfound, ?_, False.elim⟩
        rintro generated' rest' ⟨⟩
        exact ⟨_, Function.update_self _ _ _, hcut⟩

end ProcessInv

theorem isWriting_of_settle {result : Except Text Bytes} {p : KeyProcess}
    (h : (p.settle result).phase.IsWriting) :
  False
  := by
  cases result with
  | error message => exact h
  | ok key => exact h

theorem isWriting_of_beginCall {env : KeyEnv} {db : Db} {p : KeyProcess}
    (h : (beginCall env db p).phase.IsWriting) :
  p.phase.IsWriting
  := by
  unfold beginCall at h
  split at h
  · exact (isWriting_of_settle h).elim
  · split at h
    · exact (isWriting_of_settle h).elim
    · exact h.elim
    · split at h
      · exact (isWriting_of_settle h).elim
      · exact h.elim
  · exact h

/-- What an access of the disk does: it leaves the files, or it creates the key file, or it writes
more of it. -/
theorem advanceCall_cases (env : KeyEnv) (x : KeyInput) (files : Text → Option Text)
    (p : KeyProcess) :
  ((advanceCall env x files p).1 = files ∧
      ((advanceCall env x files p).2.phase.IsWriting → p.phase.IsWriting)) ∨
    (∃ generated, p.phase = .openKeyFile generated ∧ files env.keyFilePath = none) ∨
    ∃ generated rest text, p.phase = .writeKeyFile generated rest ∧
      (advanceCall env x files p).1 =
        Function.update files env.keyFilePath ((files env.keyFilePath).map (· ++ text))
  := by
  unfold advanceCall
  split
  · exact .inl ⟨rfl, id⟩
  · left
    split
    · exact ⟨rfl, False.elim⟩
    · exact ⟨rfl, fun h => (isWriting_of_settle h).elim⟩
  · exact .inl ⟨rfl, fun h => (isWriting_of_settle h).elim⟩
  · left
    split
    · exact ⟨rfl, False.elim⟩
    · split
      · exact ⟨rfl, False.elim⟩
      · exact ⟨rfl, fun h => (isWriting_of_settle h).elim⟩
  · exact .inl ⟨rfl, fun h => (isWriting_of_settle h).elim⟩
  · rename_i generated hphase
    split
    · exact .inl ⟨rfl, fun h => (isWriting_of_settle h).elim⟩
    · exact .inl ⟨rfl, False.elim⟩
    · rename_i habsent
      exact .inr (.inl ⟨generated, hphase, habsent⟩)
  · rename_i generated rest hphase
    split
    · exact .inl ⟨rfl, fun h => (isWriting_of_settle h).elim⟩
    · exact .inr (.inr ⟨generated, rest, rest.take x.written, hphase, rfl⟩)

section

variable {env : KeyEnv} {x : KeyInput} {files : Text → Option Text} {p : KeyProcess}

/-- A process that begins to write has created the file. -/
theorem isWriting_of_advanceCall (h : (advanceCall env x files p).2.phase.IsWriting) :
  p.phase.IsWriting ∨ files env.keyFilePath = none
  := by
  obtain ⟨-, hkeep⟩ | ⟨_, -, habsent⟩ | ⟨_, _, _, hphase, -⟩ := advanceCall_cases env x files p
  · exact .inl (hkeep h)
  · exact .inr habsent
  · left
    rw [hphase]
    trivial

/-- Only the process that created the file writes to it. -/
theorem advanceCall_files {content : Text} (hcontent : files env.keyFilePath = some content)
    (hwriting : ¬ p.phase.IsWriting) :
  (advanceCall env x files p).1 = files
  := by
  obtain ⟨hfiles, -⟩ | ⟨_, -, habsent⟩ | ⟨_, _, _, hphase, -⟩ := advanceCall_cases env x files p
  · exact hfiles
  · rw [hcontent] at habsent
    cases habsent
  · rw [hphase] at hwriting
    exact absurd trivial hwriting

/-- The file is created by a call that may generate the key. -/
theorem advanceCall_absent (habsent : files env.keyFilePath = none)
    (hmay : ¬ p.phase.MayGenerate) :
  (advanceCall env x files p).1 env.keyFilePath = none
  := by
  obtain ⟨hfiles, -⟩ | ⟨_, hphase, -⟩ | ⟨_, _, _, -, hfiles⟩ := advanceCall_cases env x files p
  · rw [hfiles, habsent]
  · rw [hphase] at hmay
    exact absurd trivial hmay
  · rw [hfiles, Function.update_self, habsent, Option.map_none]

end

/-! ### The database -/

theorem ciphertexts_eq_nil {db : Db} :
  db.ciphertexts = [] ↔ db.subscriptions = []
  := List.map_eq_nil_iff

theorem createWebhook_ok {ctx : OpContext} {params : WebhookCreateParams} {x : HookInput}
    {db db' : Db} {row : SubscriptionRow} (h : createWebhook ctx params x db = .ok (row, db')) :
  (∀ s ∈ db.subscriptions, s.id ≠ row.id) ∧ row.secretCiphertext = x.secretCiphertext ∧
    db'.subscriptions = db.subscriptions ++ [row]
  := by
  unfold createWebhook at h
  cases hnormalized : normalizeWebhookPathPrefix params.pathPrefix with
  | error e =>
      rw [hnormalized] at h
      cases h
  | ok pathPrefix =>
      rw [hnormalized] at h
      simp only [bind, Except.bind] at h
      split at h
      · cases h
      · split at h
        · cases h
        · unfold insertSubscription at h
          by_cases htaken : ∃ s ∈ db.subscriptions, s.id =
              (newSubscription ctx params pathPrefix x).id
          · rw [if_pos htaken] at h
            cases h
          · rw [if_neg htaken] at h
            cases h
            exact ⟨fun s hs hid => htaken ⟨s, hs, hid⟩, rfl, rfl⟩

/-- An update of other columns. -/
theorem ciphertexts_updateSubscription_of_keep {g : SubscriptionRow → SubscriptionRow}
    (hid : ∀ s, (g s).id = s.id) (hcipher : ∀ s, (g s).secretCiphertext = s.secretCiphertext)
    (id : Text) (db : Db) :
  (updateSubscription id g db).ciphertexts = db.ciphertexts
  := by
  simp only [Db.ciphertexts, updateSubscription, List.map_map]
  apply List.map_congr_left
  intro s _
  dsimp only [Function.comp_apply]
  split
  · rw [hid, hcipher]
  · rfl

theorem ciphertexts_disableSubscription (id : Text) (reason : DisabledReason) (now : Nat) (db : Db) :
  (disableSubscription id reason now db).ciphertexts = db.ciphertexts
  := by
  unfold disableSubscription
  apply ciphertexts_updateSubscription_of_keep
  · intro s
    rfl
  · intro s
    rfl

theorem ciphertexts_updateFenced {claim : ClaimedDelivery} {g : DeliveryRow → DeliveryRow}
    {db db' : Db} (h : updateFenced claim g db = some db') :
  db'.ciphertexts = db.ciphertexts
  := by
  unfold updateFenced at h
  split at h
  · cases h
    rfl
  · cases h

/-- A delivery is settled, and other columns of a subscription are updated. -/
theorem ciphertexts_updateSubscription_of_fenced {claim : ClaimedDelivery}
    {f : DeliveryRow → DeliveryRow} {g : SubscriptionRow → SubscriptionRow} {db db' : Db}
    (hfenced : updateFenced claim f db = some db') (hid : ∀ s, (g s).id = s.id)
    (hcipher : ∀ s, (g s).secretCiphertext = s.secretCiphertext) (id : Text) :
  (updateSubscription id g db').ciphertexts = db.ciphertexts
  := by
  rw [ciphertexts_updateSubscription_of_keep hid hcipher, ciphertexts_updateFenced hfenced]

theorem ciphertexts_recordResult (opts : WebhookTickOptions) (claim : ClaimedDelivery)
    (x : HookInput) (db : Db) :
  (recordResult opts claim x db).db.ciphertexts = db.ciphertexts
  := by
  unfold recordResult
  dsimp only
  split
  · split
    · rfl
    · rename_i hfenced
      apply ciphertexts_updateSubscription_of_fenced hfenced
      · intro s
        rfl
      · intro s
        rfl
  · split
    · split
      · rfl
      · rename_i hfenced
        exact ciphertexts_updateFenced hfenced
    · split
      · split
        · rfl
        · rename_i hfenced
          rw [ciphertexts_disableSubscription]
          apply ciphertexts_updateSubscription_of_fenced hfenced
          · intro s
            rfl
          · intro s
            rfl
      · split
        · rfl
        · rename_i hfenced
          have hcount := ciphertexts_updateSubscription_of_fenced (g := (·.countFailure x.now))
            hfenced (fun _ => rfl) (fun _ => rfl) claim.subscriptionId
          split
          · rw [ciphertexts_disableSubscription, hcount]
          · exact hcount

/-- What the worker does to the database once a delivery is sent has nothing to do with the
secrets. -/
def CipherKeeping.settleJob (opts : WebhookTickOptions) (job : Job) (x : HookInput) :
    CipherKeeping where
  change db := (AgentFs.settleJob opts job db x).2.2
  kept := by
    intro db
    unfold AgentFs.settleJob
    split
    · rfl
    · split
      · rfl
      · rename_i message _
        dsimp only [deferClaim]
        split
        · rfl
        · rename_i hfenced
          exact ciphertexts_updateFenced hfenced
      · exact ciphertexts_recordResult opts job.1 x db

/-- Neither has what it does to claim the deliveries. -/
def CipherKeeping.claimJobs (opts : WebhookTickOptions) (x : HookInput) : CipherKeeping where
  change db := (AgentFs.claimJobs opts db x).2.2
  kept := by
    intro db
    unfold AgentFs.claimJobs
    split
    · rfl
    · split
      · rfl
      · rfl

section

variable {params : WebhookUpdateParams} {db : Db} {x : HookInput}

theorem updatedSubscription_secretCiphertext (pathPrefix : Option (Option Text))
    (s : SubscriptionRow) :
  (updatedSubscription params pathPrefix x s).secretCiphertext =
    if params.rotateSecret then x.secretCiphertext else s.secretCiphertext
  := by
  unfold updatedSubscription
  dsimp only
  split
  · rfl
  · rfl

/-- The entry of a subscription after an update of the row. -/
def updatedEntry (params : WebhookUpdateParams) (rowId secretCiphertext : Text)
    (entry : Text × Text) : Text × Text :=
  if entry.1 = rowId ∧ params.rotateSecret then (entry.1, secretCiphertext) else entry

theorem ciphertexts_updateSubscription (pathPrefix : Option (Option Text)) (rowId : Text) :
  (updateSubscription rowId (updatedSubscription params pathPrefix x) db).ciphertexts =
    db.ciphertexts.map (updatedEntry params rowId x.secretCiphertext)
  := by
  simp only [Db.ciphertexts, updateSubscription, List.map_map]
  apply List.map_congr_left
  intro s _
  dsimp only [Function.comp_apply, updatedEntry]
  by_cases hid : s.id = rowId
  · rw [if_pos hid, updatedSubscription_id, updatedSubscription_secretCiphertext]
    by_cases hrotate : params.rotateSecret = true
    · rw [if_pos hrotate, if_pos ⟨hid, hrotate⟩]
    · rw [if_neg hrotate, if_neg (fun h => hrotate h.2)]
  · rw [if_neg hid, if_neg (fun h => hid h.1)]

/-- An update leaves the database, or the ciphertexts but for a rotation; then it fails only if the
subscription is gone. -/
theorem updateWebhook_ciphertexts (params : WebhookUpdateParams) (row : SubscriptionRow)
    (awaited : Bool) (db : Db) (x : HookInput) :
  (∃ e, (updateWebhook params row awaited db x).1 = .error e) ∧
      (updateWebhook params row awaited db x).2.2 = db ∨
    (updateWebhook params row awaited db x).2.2.ciphertexts =
        db.ciphertexts.map (updatedEntry params row.id x.secretCiphertext) ∧
      ∀ e, (updateWebhook params row awaited db x).1 = .error e →
        ∀ entry ∈ (updateWebhook params row awaited db x).2.2.ciphertexts, entry.1 ≠ row.id
  := by
  unfold updateWebhook
  dsimp only
  split
  · exact .inl ⟨⟨_, rfl⟩, rfl⟩
  · rename_i pathPrefix _
    split
    · exact .inl ⟨⟨_, rfl⟩, rfl⟩
    · right
      dsimp only
      constructor
      · split
        · rw [ciphertexts_disableSubscription, ciphertexts_updateSubscription]
        · rw [ciphertexts_updateSubscription]
      · intro e he entry hentry hid
        split at he
        · cases he
        · rename_i hnone
          obtain ⟨s, hs, rfl⟩ := List.mem_map.mp hentry
          exact of_decide_eq_false (Bool.eq_false_iff.mpr (List.find?_eq_none.mp hnone s hs)) hid

end

/-! ### All runs -/

/-- The ciphertext of each secret that was given out is decrypted with the key. -/
def SecretsKept (aes : AesGcm) (key? : Option Bytes) (ciphertexts : List (Text × Text))
    (secrets : Text → Option Text) : Prop :=
  ∀ entry ∈ ciphertexts, ∀ secret, secrets entry.1 = some secret →
    ∃ key, key? = some key ∧ decryptSecret aes entry.2 key = .ok secret

/-- The invariant of the processes, the files and the database. -/
structure KeyInv (aes : AesGcm) (env : KeyEnv) (w : KeyWorld) : Prop where
  process : ∀ p, ProcessInv env w.files w.db (w.process p)
  single : ∀ p q, (w.process p).phase.IsWriting → (w.process q).phase.IsWriting → p = q
  kept : SecretsKept aes (foundKey env w.files) w.db.ciphertexts w.secrets
  generated : ∀ id secret, w.secrets id = some secret →
    ∃ random, secret = generateWebhookSecret random

namespace KeyInv

variable {aes : AesGcm} {env : KeyEnv} {w : KeyWorld}

theorem start (files : Text → Option Text) (db : Db) :
  KeyInv aes env (.start files db)
  where
    process := fun _ => .fresh
    single := fun _ _ h => h.elim
    kept := by rintro entry _ secret ⟨⟩
    generated := by rintro id secret ⟨⟩

/-- A process goes on, and with it the files. -/
theorem setProcess (h : KeyInv aes env w) {p : Nat} {files : Text → Option Text}
    {process : KeyProcess} (hextend : FilesExtend env w.files files)
    (hprocess : ProcessInv env files w.db process)
    (hfiles : ∀ q, q ≠ p → (w.process q).phase.IsWriting → files = w.files)
    (hsingle : process.phase.IsWriting → ∀ q, q ≠ p → ¬ (w.process q).phase.IsWriting) :
  KeyInv aes env { w.setProcess p process with files := files }
  where
    process := by
      intro q
      dsimp only [KeyWorld.setProcess]
      by_cases hq : q = p
      · rw [hq, Function.update_self]
        exact hprocess
      · rw [Function.update_of_ne hq]
        exact (h.process q).extend hextend (hfiles q hq)
    single := by
      intro q r hwriting hwriting'
      dsimp only [KeyWorld.setProcess] at hwriting hwriting'
      by_cases hq : q = p
      · by_cases hr : r = p
        · rw [hq, hr]
        · rw [hq, Function.update_self] at hwriting
          rw [Function.update_of_ne hr] at hwriting'
          exact absurd hwriting' (hsingle hwriting r hr)
      · rw [Function.update_of_ne hq] at hwriting
        by_cases hr : r = p
        · rw [hr, Function.update_self] at hwriting'
          exact absurd hwriting (hsingle hwriting' q hq)
        · rw [Function.update_of_ne hr] at hwriting'
          exact h.single q r hwriting hwriting'
    kept := by
      intro entry hentry secret hsecret
      obtain ⟨key, hkey, hdecrypt⟩ := h.kept entry hentry secret hsecret
      exact ⟨key, hextend.foundKey hkey, hdecrypt⟩
    generated := h.generated

/-- A process goes on by itself. -/
theorem setProcess_self (h : KeyInv aes env w) {p : Nat} {process : KeyProcess}
    (hprocess : ProcessInv env w.files w.db process)
    (hwriting : process.phase.IsWriting → (w.process p).phase.IsWriting) :
  KeyInv aes env (w.setProcess p process)
  := by
  apply h.setProcess .refl hprocess
  · intro q _ _
    rfl
  · intro hprocess q hq hwriting'
    exact hq (h.single q p hwriting' (hwriting hprocess))

theorem advance (h : KeyInv aes env w) (p : Nat) (x : KeyInput) :
  KeyInv aes env (w.step aes env (.advance p x))
  := by
  obtain ⟨hextend, hprocess⟩ := (h.process p).advanceCall x
  apply h.setProcess hextend hprocess
  · intro q hq hwriting
    match hphase : (w.process q).phase, hwriting with
    | .writeKeyFile generated rest, _ =>
        obtain ⟨content, hcontent, -⟩ := (h.process q).writes generated rest hphase
        apply advanceCall_files hcontent
        intro hwriting'
        exact hq (h.single q p (by rw [hphase]; trivial) hwriting')
  · intro hbegins q hq hwriting
    obtain hwriting' | habsent := isWriting_of_advanceCall hbegins
    · exact hq (h.single q p hwriting hwriting')
    · match hphase : (w.process q).phase, hwriting with
      | .writeKeyFile generated rest, _ =>
          obtain ⟨content, hcontent, -⟩ := (h.process q).writes generated rest hphase
          rw [habsent] at hcontent
          cases hcontent

/-- The database changes, and with it the secrets that were given out. -/
theorem database (h : KeyInv aes env w) {db : Db} {secrets : Text → Option Text}
    (hempty : w.db.subscriptions = [] → db.subscriptions ≠ [] →
      ∃ key, foundKey env w.files = some key)
    (hkept : SecretsKept aes (foundKey env w.files) db.ciphertexts secrets)
    (hgenerated : ∀ id secret, secrets id = some secret →
      ∃ random, secret = generateWebhookSecret random) :
  KeyInv aes env { w with db := db, secrets := secrets }
  where
    process := fun p => (h.process p).database hempty
    single := h.single
    kept := hkept
    generated := hgenerated

/-- A new secret is decrypted with the key of the process, which is the one that is found. -/
theorem newSecret (h : KeyInv aes env w) {p : Nat} {random : RandomKey} {iv : RandomIv}
    {secret ciphertext : Text} (hsecret : w.newSecret aes p random iv = some (secret, ciphertext)) :
  secret = generateWebhookSecret random ∧
    ∃ key, foundKey env w.files = some key ∧ decryptSecret aes ciphertext key = .ok secret
  := by
  obtain ⟨key, hkey, hmap⟩ := Option.bind_eq_some_iff.mp hsecret
  obtain ⟨ciphertext', hencrypt, hpair⟩ := Option.map_eq_some_iff.mp hmap
  cases hpair
  have hfound := (h.process p).found key hkey
  refine ⟨rfl, key, hfound, ?_⟩
  apply decryptSecret_of_encryptSecret (length_of_foundKey hfound) iv.property
  cases hresult : encryptSecret aes (generateWebhookSecret random) key iv.val with
  | error message =>
      rw [hresult] at hencrypt
      cases hencrypt
  | ok ciphertext' =>
      rw [hresult] at hencrypt
      cases hencrypt
      rfl

theorem generated_update (h : KeyInv aes env w) (rowId : Text) (random : RandomKey) :
  ∀ id secret,
    Function.update w.secrets rowId (some (generateWebhookSecret random)) id = some secret →
    ∃ random, secret = generateWebhookSecret random
  := by
  intro id secret hsecret
  by_cases hid : id = rowId
  · rw [hid, Function.update_self, Option.some.injEq] at hsecret
    exact ⟨random, hsecret.symm⟩
  · rw [Function.update_of_ne hid] at hsecret
    exact h.generated id secret hsecret

theorem create (h : KeyInv aes env w) (p : Nat) (ctx : OpContext) (params : WebhookCreateParams)
    (x : HookInput) (random : RandomKey) (iv : RandomIv) :
  KeyInv aes env (w.create aes p ctx params x random iv)
  := by
  unfold KeyWorld.create
  split
  · exact h
  · rename_i secret ciphertext hsecret
    obtain ⟨rfl, key, hfound, hdecrypt⟩ := h.newSecret hsecret
    split
    · exact h
    · rename_i row db hcreate
      obtain ⟨hfresh, hcipher, hrows⟩ := createWebhook_ok hcreate
      apply h.database
      · intro _ _
        exact ⟨key, hfound⟩
      · intro entry hentry secret hsecret
        rw [Db.ciphertexts, hrows, List.map_append, List.mem_append] at hentry
        obtain hentry | hentry := hentry
        · have hid : entry.1 ≠ row.id := by
            obtain ⟨s, hs, rfl⟩ := List.mem_map.mp hentry
            exact hfresh s hs
          rw [Function.update_of_ne hid] at hsecret
          exact h.kept entry hentry secret hsecret
        · rw [List.map_singleton, List.mem_singleton] at hentry
          subst hentry
          rw [Function.update_self, Option.some.injEq] at hsecret
          rw [← hsecret]
          dsimp only
          rw [hcipher]
          exact ⟨key, hfound, hdecrypt⟩
      · exact h.generated_update row.id random

/-- An update that rotates nothing. -/
theorem updatedEntry_of_not_rotate {params : WebhookUpdateParams} {rowId ciphertext : Text}
    (hrotate : params.rotateSecret = false) :
  updatedEntry params rowId ciphertext = id
  := by
  funext entry
  rw [updatedEntry, hrotate, if_neg (by rintro ⟨-, ⟨⟩⟩)]
  rfl

theorem subscriptions_eq_nil_of_map {db db' : Db} {g : Text × Text → Text × Text}
    (h : db'.ciphertexts = db.ciphertexts.map g) (hempty : db.subscriptions = []) :
  db'.subscriptions = []
  := by
  rw [← ciphertexts_eq_nil] at hempty ⊢
  rw [h, hempty, List.map_nil]

/-- The entries of a rotation: the new one is decrypted, the others are as they were. -/
theorem kept_rotate (h : KeyInv aes env w) {params : WebhookUpdateParams}
    {rowId secret ciphertext : Text} {key : Bytes} (hrotate : params.rotateSecret = true)
    (hfound : foundKey env w.files = some key)
    (hdecrypt : decryptSecret aes ciphertext key = .ok secret) :
  SecretsKept aes (foundKey env w.files)
    (w.db.ciphertexts.map (updatedEntry params rowId ciphertext))
    (Function.update w.secrets rowId (some secret))
  := by
  intro entry hentry secret' hsecret
  obtain ⟨before, hbefore, rfl⟩ := List.mem_map.mp hentry
  unfold updatedEntry at hsecret ⊢
  by_cases hid : before.1 = rowId
  · rw [if_pos ⟨hid, hrotate⟩] at hsecret ⊢
    dsimp only at hsecret
    rw [hid, Function.update_self, Option.some.injEq] at hsecret
    rw [← hsecret]
    exact ⟨key, hfound, hdecrypt⟩
  · rw [if_neg (fun h => hid h.1)] at hsecret ⊢
    rw [Function.update_of_ne hid] at hsecret
    exact h.kept before hbefore secret' hsecret

/-- Entries that were not updated. -/
theorem kept_of_ne (h : KeyInv aes env w) {params : WebhookUpdateParams} {rowId ciphertext : Text}
    (hne : ∀ entry ∈ w.db.ciphertexts.map (updatedEntry params rowId ciphertext), entry.1 ≠ rowId) :
  SecretsKept aes (foundKey env w.files)
    (w.db.ciphertexts.map (updatedEntry params rowId ciphertext)) w.secrets
  := by
  intro entry hentry secret hsecret
  have hid := hne entry hentry
  obtain ⟨before, hbefore, rfl⟩ := List.mem_map.mp hentry
  unfold updatedEntry at hid hsecret ⊢
  split at hid
  · rename_i hrow
    exact absurd hrow.1 hid
  · rename_i hrow
    rw [if_neg hrow] at hsecret ⊢
    exact h.kept before hbefore secret hsecret

theorem update (h : KeyInv aes env w) (p : Nat) (params : WebhookUpdateParams)
    (row : SubscriptionRow) (awaited : Bool) (x : HookInput) (random : RandomKey) (iv : RandomIv) :
  KeyInv aes env (w.update aes p params row awaited x random iv)
  := by
  unfold KeyWorld.update
  split
  · rename_i hrotate
    split
    · exact h
    · rename_i secret ciphertext hsecret
      obtain ⟨rfl, key, hfound, hdecrypt⟩ := h.newSecret hsecret
      have hcases := updateWebhook_ciphertexts params row awaited w.db
        { x with secretCiphertext := ciphertext }
      split
      · rename_i e _ db hupdate
        rw [hupdate] at hcases
        obtain ⟨-, rfl⟩ | ⟨hmap, hgone⟩ := hcases
        · exact h
        · apply h.database
          · intro hempty hne
            exact absurd (subscriptions_eq_nil_of_map hmap hempty) hne
          · rw [hmap]
            apply h.kept_of_ne
            rw [← hmap]
            exact hgone e rfl
          · exact h.generated
      · rename_i _ _ db hupdate
        rw [hupdate] at hcases
        obtain ⟨⟨e, ⟨⟩⟩, -⟩ | ⟨hmap, -⟩ := hcases
        apply h.database
        · intro hempty hne
          exact absurd (subscriptions_eq_nil_of_map hmap hempty) hne
        · rw [hmap]
          exact h.kept_rotate hrotate hfound hdecrypt
        · exact h.generated_update row.id random
  · rename_i hrotate
    obtain ⟨-, hdb⟩ | ⟨hmap, -⟩ := updateWebhook_ciphertexts params row awaited w.db x
    · rw [hdb]
      exact h
    · rw [updatedEntry_of_not_rotate (Bool.eq_false_iff.mpr hrotate)] at hmap
      apply h.database
      · intro hempty hne
        exact absurd (subscriptions_eq_nil_of_map hmap hempty) hne
      · rw [hmap, List.map_id]
        exact h.kept
      · exact h.generated

theorem step (h : KeyInv aes env w) (action : SecretKeyAction) :
  KeyInv aes env (w.step aes env action)
  := by
  cases action with
  | call p => exact h.setProcess_self (h.process p).beginCall isWriting_of_beginCall
  | advance p x => exact h.advance p x
  | restart p => exact h.setProcess_self .fresh False.elim
  | create p ctx params x random iv => exact h.create p ctx params x random iv
  | update p params row awaited x random iv => exact h.update p params row awaited x random iv
  | delete id =>
      apply h.database
      · intro hempty hne
        apply absurd _ hne
        dsimp only [deleteSubscription]
        rw [hempty, List.filter_nil]
      · intro entry hentry
        obtain ⟨s, hs, rfl⟩ := List.mem_map.mp hentry
        exact h.kept _ (List.mem_map.mpr ⟨s, (List.mem_filter.mp hs).1, rfl⟩)
      · exact h.generated
  | other keeping =>
      apply h.database
      · intro hempty hne
        apply absurd _ hne
        rw [← ciphertexts_eq_nil, keeping.kept, ciphertexts_eq_nil, hempty]
      · rw [keeping.kept]
        exact h.kept
      · exact h.generated

theorem run (h : KeyInv aes env w) (actions : List SecretKeyAction) :
  KeyInv aes env (w.run aes env actions)
  := by
  induction actions generalizing w with
  | nil => exact h
  | cons action actions ih => exact ih (h.step action)

end KeyInv

namespace KeyWorld

variable {aes : AesGcm} {env : KeyEnv} {w : KeyWorld}

theorem run_append (actions more : List SecretKeyAction) :
  w.run aes env (actions ++ more) = (w.run aes env actions).run aes env more
  := List.foldl_append

theorem create_files (p : Nat) (ctx : OpContext) (params : WebhookCreateParams) (x : HookInput)
    (random : RandomKey) (iv : RandomIv) :
  (w.create aes p ctx params x random iv).files = w.files ∧
    (w.create aes p ctx params x random iv).process = w.process
  := by
  unfold create
  split
  · exact ⟨rfl, rfl⟩
  · split
    · exact ⟨rfl, rfl⟩
    · exact ⟨rfl, rfl⟩

theorem update_files (p : Nat) (params : WebhookUpdateParams) (row : SubscriptionRow)
    (awaited : Bool) (x : HookInput) (random : RandomKey) (iv : RandomIv) :
  (w.update aes p params row awaited x random iv).files = w.files ∧
    (w.update aes p params row awaited x random iv).process = w.process
  := by
  unfold update
  split
  · split
    · exact ⟨rfl, rfl⟩
    · split
      · exact ⟨rfl, rfl⟩
      · exact ⟨rfl, rfl⟩
  · exact ⟨rfl, rfl⟩

/-- The files change by an access of the disk only. -/
theorem step_files (aes : AesGcm) (env : KeyEnv) (w : KeyWorld) (action : SecretKeyAction) :
  (w.step aes env action).files = w.files ∨
    ∃ p x, action = .advance p x ∧
      (w.step aes env action).files = (advanceCall env x w.files (w.process p)).1
  := by
  cases action with
  | advance p x => exact .inr ⟨p, x, rfl, rfl⟩
  | call p => exact .inl rfl
  | restart p => exact .inl rfl
  | create p ctx params x random iv => exact .inl (create_files p ctx params x random iv).1
  | update p params row awaited x random iv =>
      exact .inl (update_files p params row awaited x random iv).1
  | delete id => exact .inl rfl
  | other keeping => exact .inl rfl

theorem filesExtend_step (h : KeyInv aes env w) (action : SecretKeyAction) :
  FilesExtend env w.files (w.step aes env action).files
  := by
  obtain hfiles | ⟨p, x, -, hfiles⟩ := w.step_files aes env action
  · rw [hfiles]
    exact .refl
  · rw [hfiles]
    exact ((h.process p).advanceCall x).1

theorem filesExtend_run (h : KeyInv aes env w) (actions : List SecretKeyAction) :
  FilesExtend env w.files (w.run aes env actions).files
  := by
  induction actions generalizing w with
  | nil => exact .refl
  | cons action actions ih => exact (filesExtend_step h action).trans (ih (h.step action))

/-- A process that is started in the place of another finds the key. -/
theorem cachedKey_of_restart {key : Bytes} (hfound : foundKey env w.files = some key) (q : Nat)
    {x x' : KeyInput} (hx : x.failed = none) (hx' : x'.failed = none) :
  ((w.run aes env [.restart q, .call q, .advance q x, .advance q x']).process q).cachedKey = some key
  := by
  simp only [run, List.foldl_cons, List.foldl_nil, step, setProcess, Function.update_self,
    Function.update_idem]
  unfold foundKey at hfound
  split at hfound
  · rename_i text hsecret
    simp only [beginCall, KeyProcess.fresh, hsecret, decodeAndValidate_of_decodeKey hfound,
      KeyProcess.settle, advanceCall]
  · rename_i path hsecret hpath
    obtain ⟨content, hcontent, hdecode⟩ := Option.bind_eq_some_iff.mp hfound
    simp only [beginCall, KeyProcess.fresh, hsecret, hpath, KeyProcess.enter, advanceCall, fileExists,
      hx, hcontent, Option.isNone_none, Option.isSome_some, Bool.and_self, if_true, readKeyText, hx',
      bind, Except.bind, decodeAndValidate_of_decodeKey hdecode, KeyProcess.settle]
  · rename_i hsecret hpath
    split at hfound
    · cases hfound
    · rename_i hmemory
      obtain ⟨content, hcontent, hdecode⟩ := Option.bind_eq_some_iff.mp hfound
      simp only [beginCall, KeyProcess.fresh, hsecret, hpath, hmemory, if_false, KeyProcess.enter,
        advanceCall, fileExists, hx, hcontent, Option.isNone_none, Option.isSome_some, Bool.and_self,
        if_true, readKeyText, hx', bind, Except.bind, decodeAndValidate_of_decodeKey hdecode,
        KeyProcess.settle]

/-- A process that begins to write has created the file. -/
theorem isWriting_of_step {action : SecretKeyAction} {p : Nat}
    (h : ((w.step aes env action).process p).phase.IsWriting) :
  (w.process p).phase.IsWriting ∨ w.files env.keyFilePath = none
  := by
  have hupdate : ∀ {q : Nat} {process : KeyProcess},
      (Function.update w.process q process p).phase.IsWriting →
      (w.process p).phase.IsWriting ∨ p = q ∧ process.phase.IsWriting := by
    intro q process h
    by_cases hp : p = q
    · rw [hp, Function.update_self] at h
      exact .inr ⟨hp, h⟩
    · rw [Function.update_of_ne hp] at h
      exact .inl h
  cases action with
  | call q =>
      obtain hp | ⟨rfl, hprocess⟩ := hupdate h
      · exact .inl hp
      · exact .inl (isWriting_of_beginCall hprocess)
  | advance q x =>
      obtain hp | ⟨rfl, hprocess⟩ := hupdate h
      · exact .inl hp
      · exact isWriting_of_advanceCall hprocess
  | restart q =>
      obtain hp | ⟨rfl, hprocess⟩ := hupdate h
      · exact .inl hp
      · exact False.elim hprocess
  | create q ctx params x random iv =>
      left
      rwa [step, (create_files q ctx params x random iv).2] at h
  | update q params row awaited x random iv =>
      left
      rwa [step, (update_files q params row awaited x random iv).2] at h
  | delete id => exact .inl h
  | other keeping => exact .inl h

/-- The file is created for an empty table only. -/
theorem subscriptions_of_create (h : KeyInv aes env w) {action : SecretKeyAction}
    (habsent : w.files env.keyFilePath = none)
    (hcreate : (w.step aes env action).files env.keyFilePath ≠ none) :
  w.db.subscriptions = []
  := by
  obtain hfiles | ⟨p, x, -, hfiles⟩ := step_files aes env w action
  · rw [hfiles] at hcreate
    exact absurd habsent hcreate
  · rw [hfiles] at hcreate
    apply (h.process p).empty _ habsent
    by_contra hmay
    apply hcreate
    exact advanceCall_absent habsent hmay

/-- A key file that is there is only read, unless it was created by a process of the run. -/
theorem run_files {content : Text} (hcontent : w.files env.keyFilePath = some content)
    (hwriting : ∀ p, ¬ (w.process p).phase.IsWriting) (actions : List SecretKeyAction) :
  (w.run aes env actions).files = w.files
  := by
  induction actions generalizing w with
  | nil => rfl
  | cons action actions ih =>
      have hfiles : (w.step aes env action).files = w.files := by
        obtain hfiles | ⟨p, x, -, hfiles⟩ := step_files aes env w action
        · exact hfiles
        · rw [hfiles, advanceCall_files hcontent (hwriting p)]
      have hstep : ∀ p, ¬ ((w.step aes env action).process p).phase.IsWriting := by
        intro p hp
        obtain hp | habsent := isWriting_of_step hp
        · exact hwriting p hp
        · rw [hcontent] at habsent
          cases habsent
      rw [run, List.foldl_cons, ← hfiles]
      exact ih (by rw [hfiles, hcontent]) hstep

end KeyWorld

/-- What holds of the key in every run from the given files and database. -/
structure SecretKeyLaw (aes : AesGcm) (env : KeyEnv) (files : Text → Option Text) (db : Db) :
    Prop where
  /-- Two processes never have two keys, not even one after the other. -/
  agree : ∀ actions more p q key key',
    (((KeyWorld.start files db).run aes env actions).process p).cachedKey = some key →
    (((KeyWorld.start files db).run aes env (actions ++ more)).process q).cachedKey = some key' →
    key' = key
  valid : ∀ actions p key,
    (((KeyWorld.start files db).run aes env actions).process p).cachedKey = some key →
    key.length = 32
  /-- While one process has the key, another that is started finds it. -/
  again : ∀ actions p key q x x',
    (((KeyWorld.start files db).run aes env actions).process p).cachedKey = some key →
    x.failed = none → x'.failed = none →
    (((KeyWorld.start files db).run aes env
      (actions ++ [.restart q, .call q, .advance q x, .advance q x'])).process q).cachedKey = some key
  /-- A key file is never overwritten. -/
  untouched : ∀ content actions, files env.keyFilePath = some content →
    ((KeyWorld.start files db).run aes env actions).files = files
  /-- No key is generated for a database with secrets. -/
  refuses : ∀ actions action,
    ((KeyWorld.start files db).run aes env actions).db.subscriptions ≠ [] →
    ((KeyWorld.start files db).run aes env actions).files env.keyFilePath = none →
    ((KeyWorld.start files db).run aes env (actions ++ [action])).files env.keyFilePath = none
  /-- Every process decrypts every secret that was given out. -/
  decrypts : ∀ actions p key id ciphertext secret,
    (((KeyWorld.start files db).run aes env actions).process p).cachedKey = some key →
    (id, ciphertext) ∈ ((KeyWorld.start files db).run aes env actions).db.ciphertexts →
    ((KeyWorld.start files db).run aes env actions).secrets id = some secret →
    decryptSecret aes ciphertext key = .ok secret ∧
      ∃ random, secret = generateWebhookSecret random

end AgentFs
