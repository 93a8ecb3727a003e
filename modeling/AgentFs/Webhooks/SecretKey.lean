import AgentFs.Lib.Base64
import AgentFs.Ops.Utf8
import AgentFs.Webhooks.Addresses
import AgentFs.Webhooks.Signature
import AgentFs.Webhooks.Subscriptions

/-!
# The key of the webhook secrets

`secrets-cipher.ts` and `key.ts`: the cipher of the signing secrets, and how the processes that
share a database come by its key.  A call of `getWebhookSecretKey` is synchronous in its process,
so that it goes on from one access of the disk to the next while other processes run.
-/

namespace AgentFs

/-! ### The cipher -/

def aesKeyBytes : Nat := 32

def ivBytes : Nat := 12

def tagBytes : Nat := 16

/-- AES-256-GCM of `node:crypto`. -/
structure AesGcm where
  /-- The ciphertext and the tag, by key, iv and plaintext. -/
  encrypt : Bytes → Bytes → Bytes → Bytes × Bytes
  /-- The plaintext, or the message of the error, by key, iv, ciphertext and tag. -/
  decrypt : Bytes → Bytes → Bytes → Bytes → Except Text Bytes
  length_tag : ∀ key iv plaintext, (encrypt key iv plaintext).2.length = tagBytes
  decrypt_encrypt : ∀ key iv plaintext, key.length = aesKeyBytes → iv.length = ivBytes →
    decrypt key iv (encrypt key iv plaintext).1 (encrypt key iv plaintext).2 = .ok plaintext

def assertKey (key : Bytes) : Except Text Unit :=
  if key.length ≠ aesKeyBytes then
    .error ("Invalid encryption key: expected ".toList ++ decimal aesKeyBytes ++
      " bytes, got ".toList ++ decimal key.length ++ " bytes".toList)
  else .ok ()

def encryptSecret (aes : AesGcm) (plaintext : Text) (key iv : Bytes) : Except Text Text := do
  assertKey key
  let (ciphertext, authTag) := aes.encrypt key iv (textEncode plaintext)
  if authTag.length ≠ tagBytes then
    throw ("encryptSecret: unexpected auth tag length ".toList ++ decimal authTag.length)
  pure (Base64.encode (iv ++ ciphertext ++ authTag))

def decryptSecret (aes : AesGcm) (encoded : Text) (key : Bytes) : Except Text Text := do
  assertKey key
  let buf := Base64.decode encoded
  if buf.length < ivBytes + tagBytes then
    throw ("decryptSecret: payload too short (".toList ++ decimal buf.length ++
      " bytes, need at least ".toList ++ decimal (ivBytes + tagBytes) ++ ")".toList)
  let authTag := buf.drop (buf.length - tagBytes)
  let ciphertext := (buf.take (buf.length - tagBytes)).drop ivBytes
  match aes.decrypt key (buf.take ivBytes) ciphertext authTag with
  | .ok plaintext => pure (decodeFrom .start plaintext)
  | .error message =>
      throw ("decryptSecret: auth tag verification failed or payload corrupted: ".toList ++ message)

/-! ### The text of a key -/

def keyGenerationHelp : Text :=
  ("\n".intercalate
    ["",
      "How to generate a valid key:",
      "  openssl rand -base64 32   # 43-char base64 (recommended)",
      "  openssl rand -hex 32      # 64-char hex (also accepted)",
      "",
      "Common mistake: `openssl rand -base64 39` produces a 52-char string that",
      "decodes to 39 bytes — the number passed to `openssl rand` is the decoded",
      "byte count, and AES-256 requires exactly 32."]).toList

/-- `HEX_32_BYTE_RE`. -/
def IsHex32 (text : Text) : Prop :=
  text.length = 64 ∧ text.all isHexDigit

instance (text : Text) : Decidable (IsHex32 text) :=
  inferInstanceAs (Decidable (_ ∧ _))

/-- `Buffer.from(text, "hex")`, of hexadecimal digits. -/
def hexBytes : Text → Bytes
  | high :: low :: text => UInt8.ofNat (digitValue high * 16 + digitValue low) :: hexBytes text
  | _ => []

def decodeAndValidate (source content : Text) : Except Text Bytes :=
  let trimmed := trim content
  if IsHex32 trimmed then .ok (hexBytes trimmed)
  else
    let decoded := Base64.decode trimmed
    if decoded.length = aesKeyBytes then .ok decoded
    else .error ("Invalid encryption key at ".toList ++ source ++ ": expected ".toList ++
      decimal aesKeyBytes ++ " bytes, got ".toList ++ decimal decoded.length ++
      " bytes after base64 decode.\n".toList ++ keyGenerationHelp)

/-! ### A process -/

/-- What the processes are started with. -/
structure KeyEnv where
  secretsKey : Option Text
  secretsKeyFile : Option Text
  dbPath : Text
  /-- `path.join(path.dirname(dbPath), ".secrets-key")`. -/
  keyFilePath : Text
  deriving DecidableEq, Repr

/-- How far a call has come. -/
inductive KeyPhase where
  | idle
  | findEnvFile (path : Text)
  | readEnvFile (path : Text)
  | findKeyFile (allowGenerate : Bool)
  | readKeyFile
  | openKeyFile (generated : RandomKey)
  /-- The file is this process's; the rest is still to be written. -/
  | writeKeyFile (generated : RandomKey) (rest : Text)
  deriving DecidableEq

structure KeyProcess where
  cachedKey : Option Bytes
  phase : KeyPhase
  /-- What the last call that returned did. -/
  result : Option (Except Text Bytes)

namespace KeyProcess

def fresh : KeyProcess :=
  ⟨none, .idle, none⟩

def enter (phase : KeyPhase) (p : KeyProcess) : KeyProcess :=
  { p with phase := phase }

/-- The call returns a key, which it caches, or throws. -/
def settle (result : Except Text Bytes) (p : KeyProcess) : KeyProcess :=
  match result with
  | .ok key => ⟨some key, .idle, some (.ok key)⟩
  | .error message => ⟨p.cachedKey, .idle, some (.error message)⟩

end KeyProcess

/-- What one access of the disk takes from outside. -/
structure KeyInput where
  /-- Why it fails, if it does; a file is then not found. -/
  failed : Option Text
  generated : RandomKey
  /-- How many characters one write takes. -/
  written : Nat

def hasEncryptedRows (db : Db) : Bool :=
  !db.subscriptions.isEmpty

/-- `existsSync`. -/
def fileExists (files : Text → Option Text) (path : Text) (x : KeyInput) : Bool :=
  x.failed.isNone && (files path).isSome

/-- `readFileSync`. -/
def readKeyText (files : Text → Option Text) (path : Text) (x : KeyInput) : Except Text Text :=
  match x.failed, files path with
  | some message, _ => .error message
  | none, some content => .ok content
  | none, none =>
      .error ("ENOENT: no such file or directory, open '".toList ++ path ++ "'".toList)

def envFileSource (path : Text) : Text :=
  "env:AGENT_FS_SECRETS_KEY_FILE (".toList ++ path ++ ")".toList

/-- The begin of `getWebhookSecretKey`, up to the first access of the disk. -/
def beginCall (env : KeyEnv) (db : Db) (p : KeyProcess) : KeyProcess :=
  match p.phase, p.cachedKey with
  | .idle, some key => p.settle (.ok key)
  | .idle, none =>
      match env.secretsKey.filter (· ≠ []), env.secretsKeyFile.filter (· ≠ []) with
      | some envKey, _ => p.settle (decodeAndValidate "env:AGENT_FS_SECRETS_KEY".toList envKey)
      | none, some path => p.enter (.findEnvFile path)
      | none, none =>
          if env.dbPath = ":memory:".toList then
            p.settle (.error ("In-memory database requires AGENT_FS_SECRETS_KEY or " ++
              "AGENT_FS_SECRETS_KEY_FILE to be set explicitly").toList)
          else p.enter (.findKeyFile (!hasEncryptedRows db))
  | _, _ => p

/-- The next access of the disk by a call: what it leaves of the files, and the process. -/
def advanceCall (env : KeyEnv) (x : KeyInput) (files : Text → Option Text) (p : KeyProcess) :
    (Text → Option Text) × KeyProcess :=
  match p.phase with
  | .idle => (files, p)
  | .findEnvFile path =>
      if fileExists files path x then (files, p.enter (.readEnvFile path))
      else (files, p.settle (.error ("Invalid encryption key at ".toList ++ envFileSource path ++
        ": file does not exist".toList)))
  | .readEnvFile path =>
      (files, p.settle (readKeyText files path x >>= decodeAndValidate (envFileSource path)))
  | .findKeyFile allowGenerate =>
      if fileExists files env.keyFilePath x then (files, p.enter .readKeyFile)
      else if allowGenerate then (files, p.enter (.openKeyFile x.generated))
      else (files, p.settle (.error (("Refusing to auto-generate .secrets-key for an existing " ++
        "database with encrypted webhook secrets. Restore AGENT_FS_SECRETS_KEY, " ++
        "AGENT_FS_SECRETS_KEY_FILE, or ").toList ++ env.keyFilePath ++ " before booting.".toList)))
  | .readKeyFile =>
      (files, p.settle (readKeyText files env.keyFilePath x >>=
        decodeAndValidate ("file:".toList ++ env.keyFilePath)))
  | .openKeyFile generated =>
      match x.failed, files env.keyFilePath with
      | some message, _ => (files, p.settle (.error message))
      -- `EEXIST`: another process won the race
      | none, some _ => (files, p.enter .readKeyFile)
      | none, none =>
          (Function.update files env.keyFilePath (some []),
            p.enter (.writeKeyFile generated (Base64.encode generated.val)))
  | .writeKeyFile generated rest =>
      match x.failed with
      | some message => (files, p.settle (.error message))
      | none =>
          (Function.update files env.keyFilePath
              ((files env.keyFilePath).map (· ++ rest.take x.written)),
            if (rest.drop x.written).isEmpty then p.settle (.ok generated.val)
            else p.enter (.writeKeyFile generated (rest.drop x.written)))

/-! ### The processes of a database -/

/-- The ciphertexts of the subscriptions, by their ids. -/
def Db.ciphertexts (db : Db) : List (Text × Text) :=
  db.subscriptions.map (fun s => (s.id, s.secretCiphertext))

/-- A change of the database that has nothing to do with the secrets. -/
structure CipherKeeping where
  change : Db → Db
  kept : ∀ db, (change db).ciphertexts = db.ciphertexts

/-- The files, the database and the processes.  The secrets are what the callers were given, by
the id of the subscription. -/
structure KeyWorld where
  files : Text → Option Text
  db : Db
  secrets : Text → Option Text
  process : Nat → KeyProcess

/-- A 12-byte nonce. -/
abbrev RandomIv := { bytes : Bytes // bytes.length = ivBytes }

inductive SecretKeyAction where
  | call (p : Nat)
  | advance (p : Nat) (x : KeyInput)
  /-- The process dies, and another is started in its place. -/
  | restart (p : Nat)
  | create (p : Nat) (ctx : OpContext) (params : WebhookCreateParams) (x : HookInput)
      (random : RandomKey) (iv : RandomIv)
  | update (p : Nat) (params : WebhookUpdateParams) (row : SubscriptionRow) (awaited : Bool)
      (x : HookInput) (random : RandomKey) (iv : RandomIv)
  | delete (id : Text)
  | other (keeping : CipherKeeping)

namespace KeyWorld

def start (files : Text → Option Text) (db : Db) : KeyWorld :=
  ⟨files, db, fun _ => none, fun _ => .fresh⟩

def setProcess (p : Nat) (process : KeyProcess) (w : KeyWorld) : KeyWorld :=
  { w with process := Function.update w.process p process }

/-- The secret of a new subscription or of a rotation, with its ciphertext; none without a key. -/
def newSecret (aes : AesGcm) (p : Nat) (random : RandomKey) (iv : RandomIv) (w : KeyWorld) :
    Option (Text × Text) :=
  (w.process p).cachedKey.bind (fun key =>
    (encryptSecret aes (generateWebhookSecret random) key iv.val).toOption.map
      (fun ciphertext => (generateWebhookSecret random, ciphertext)))

/-- `webhook-create`, once it has the key. -/
def create (aes : AesGcm) (p : Nat) (ctx : OpContext) (params : WebhookCreateParams) (x : HookInput)
    (random : RandomKey) (iv : RandomIv) (w : KeyWorld) : KeyWorld :=
  match w.newSecret aes p random iv with
  | none => w
  | some (secret, ciphertext) =>
      match createWebhook ctx params { x with secretCiphertext := ciphertext } w.db with
      | .error _ => w
      | .ok (row, db) =>
          { w with db := db, secrets := Function.update w.secrets row.id (some secret) }

/-- `webhook-update`, which needs the key to rotate the secret only. -/
def update (aes : AesGcm) (p : Nat) (params : WebhookUpdateParams) (row : SubscriptionRow)
    (awaited : Bool) (x : HookInput) (random : RandomKey) (iv : RandomIv) (w : KeyWorld) : KeyWorld :=
  if params.rotateSecret then
    match w.newSecret aes p random iv with
    | none => w
    | some (secret, ciphertext) =>
        match updateWebhook params row awaited w.db { x with secretCiphertext := ciphertext } with
        | (.error _, _, db) => { w with db := db }
        | (.ok _, _, db) =>
            { w with db := db, secrets := Function.update w.secrets row.id (some secret) }
  else { w with db := (updateWebhook params row awaited w.db x).2.2 }

def step (aes : AesGcm) (env : KeyEnv) (w : KeyWorld) : SecretKeyAction → KeyWorld
  | .call p => w.setProcess p (beginCall env w.db (w.process p))
  | .advance p x =>
      let (files, process) := advanceCall env x w.files (w.process p)
      { w.setProcess p process with files := files }
  | .restart p => w.setProcess p .fresh
  | .create p ctx params x random iv => w.create aes p ctx params x random iv
  | .update p params row awaited x random iv => w.update aes p params row awaited x random iv
  | .delete id => { w with db := deleteSubscription id w.db }
  | .other keeping => { w with db := keeping.change w.db }

def run (aes : AesGcm) (env : KeyEnv) (w : KeyWorld) (actions : List SecretKeyAction) : KeyWorld :=
  actions.foldl (step aes env) w

end KeyWorld

end AgentFs
