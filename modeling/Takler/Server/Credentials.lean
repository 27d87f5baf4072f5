import Mathlib
import Takler.Lib.CodePoints
import Takler.Lib.Interleaved

/-!
# The authentication of calls

The server checks every call before it is handled (`server/auth.py`). An operator's call has to
present a secret of the secret file and, when there is a whitelist file, a user of that file. Both
files are read through a cache that is keyed by their modification time and size.

Reading a file takes two operations of the file system, `stat` and `read_text`. While the server
performs them, the files may be edited, and each of the operations may fail. The methods of the
credential store are therefore programs over these operations, and return the store with its caches
as they are afterwards. Calls do not overlap: `authorize` has no point at which another one could
run.

What the interpreter does with characters and encodings is a parameter, `Platform`. What is logged
is left out.

## Main definitions

* `parseCredentialLines`, `CredentialFile.read`: the files.
* `CredentialStore.authorizeOperator`, `AuthGate.authorize`: the check.
* `World`, `setting`: the files over time.
* `Server.Step`: calls and edits, one after the other.
-/

namespace Takler.Auth

open Interleaved

/-! ### Files -/

/-- What is left to the interpreter and its environment. -/
structure Platform where
  /-- `str.lower`. -/
  lower : CodePoints → CodePoints
  /-- `bytes.decode("utf-8")`. -/
  decodeUtf8 : List UInt8 → Option CodePoints
  /-- The text that `Path.read_text` makes of the bytes of a file. -/
  decodeFile : List UInt8 → Option CodePoints

/-- `(st_mtime_ns, st_size)`. -/
abbrev Fingerprint := ℤ × ℕ

/-- The operations of the file system. -/
inductive FileOp
  | stat (path : CodePoints)
  | readText (path : CodePoints)

/-- An operation fails with the type and the text of its exception. -/
def FileOp.Answer : FileOp → Type
  | stat _ => Except CodePoints Fingerprint
  | readText _ => Except CodePoints CodePoints

/-- A program over the operations of the file system. -/
abbrev Script := Prog FileOp.Answer

/-- `os.stat`. -/
def stat (path : CodePoints) : Script (Except CodePoints Fingerprint) := .call (.stat path) .done

/-- `Path.read_text`. -/
def readText (path : CodePoints) : Script (Except CodePoints CodePoints) :=
  .call (.readText path) .done

/-- `_is_blank`. -/
def isBlank (t : CodePoints) : Bool := t.strip = []

/-- `COMMENT_PREFIX`. -/
def commentPrefix : CodePoints := CodePoints.ofString "#"

/-- `parse_credential_lines`. -/
def parseCredentialLines (text : CodePoints) : Finset CodePoints :=
  ((text.splitlines.map CodePoints.strip).filter fun line =>
    line ≠ [] && !(commentPrefix.isPrefixOf line)).toFinset

/-- `CredentialFileContent`. -/
structure CredentialFileContent where
  configured : Bool
  values : Finset CodePoints := ∅
  error : Option CodePoints := none

/-- `_CredentialFile`. -/
structure CredentialFile where
  path : Option CodePoints
  description : String
  fingerprint : Option Fingerprint := none
  values : Finset CodePoints := ∅

namespace CredentialFile

/-- `_CredentialFile(path, description)`. -/
def new (path : Option CodePoints) (description : String) : CredentialFile where
  path := path.filter fun p => !isBlank p
  description := description

/-- `_failure`. -/
def failure (c : CredentialFile) (path reason : CodePoints) :
    CredentialFileContent × CredentialFile :=
  ({ configured := true
     error := some (CodePoints.ofString ("cannot read " ++ c.description ++ " ") ++ path ++
       CodePoints.ofString ": " ++ reason) },
   { c with fingerprint := none, values := ∅ })

/-- The part of `read` after the file was found changed. -/
def reload (c : CredentialFile) (path : CodePoints) (fingerprint : Fingerprint) :
    Script (CredentialFileContent × CredentialFile) := do
  match ← readText path with
  | .error reason => pure (c.failure path reason)
  | .ok text =>
    let values := parseCredentialLines text
    pure ({ configured := true, values }, { c with values, fingerprint := some fingerprint })

/-- `_CredentialFile.read`. -/
def read (c : CredentialFile) : Script (CredentialFileContent × CredentialFile) :=
  match c.path with
  | none => pure ({ configured := false }, c)
  | some path => do
    match ← stat path with
    | .error reason => pure (c.failure path reason)
    | .ok fingerprint =>
      if some fingerprint = c.fingerprint then
        pure ({ configured := true, values := c.values }, c)
      else c.reload path fingerprint

end CredentialFile

/-! ### The store -/

/-- `RejectionReason`. -/
inductive RejectionReason
  | missingCredential
  | invalidCredential
  | notInWhitelist
deriving DecidableEq

/-- `CredentialStore`. -/
structure CredentialStore where
  secret : CredentialFile
  whitelist : CredentialFile

/-- What may be given to `verify_secret`. -/
inductive Candidate
  | text (t : CodePoints)
  | bytes (b : List UInt8)
  | other

namespace CredentialStore

/-- `CredentialStore(secret_file, whitelist_file)`. -/
def new (secretFile whitelistFile : Option CodePoints) : CredentialStore where
  secret := .new secretFile "operator secret file"
  whitelist := .new whitelistFile "operator whitelist file"

/-- `read_secret_set`. -/
def readSecretSet (s : CredentialStore) : Script (CredentialFileContent × CredentialStore) := do
  let (content, secret) ← s.secret.read
  pure (content, { s with secret })

/-- `read_whitelist`. -/
def readWhitelist (s : CredentialStore) : Script (CredentialFileContent × CredentialStore) := do
  let (content, whitelist) ← s.whitelist.read
  pure (content, { s with whitelist })

/-- `verify_secret` with the comparison that is the default. -/
def verifySecret (s : CredentialStore) (candidate : Candidate) :
    Script (Bool × CredentialStore) := do
  match candidate with
  | .other => pure (false, s)
  | .text t =>
    let (content, s) ← s.readSecretSet
    pure (decide (∃ secret ∈ content.values, t.encode = secret.encode), s)
  | .bytes b =>
    let (content, s) ← s.readSecretSet
    pure (decide (∃ secret ∈ content.values, b = secret.encode), s)

/-- `is_whitelisted`. -/
def isWhitelisted (s : CredentialStore) (user : Option CodePoints) :
    Script (Bool × CredentialStore) := do
  let (content, s) ← s.readWhitelist
  if ¬ content.configured then pure (true, s)
  else
    match user with
    | none => pure (false, s)
    | some user => pure (decide (user ∈ content.values), s)

/-- The part of `authorize_operator` after the files were read. -/
def checkOperator (s : CredentialStore) (secretContent whitelistContent : CredentialFileContent)
    (secret user : CodePoints) : Script (Option RejectionReason × CredentialStore) := do
  if secretContent.error.isSome || whitelistContent.error.isSome then
    pure (some .invalidCredential, s)
  else if ¬ secretContent.configured then pure (some .invalidCredential, s)
  else
    let (verified, s) ← s.verifySecret (.text secret)
    if ¬ verified then pure (some .invalidCredential, s)
    else
      let (listed, s) ← s.isWhitelisted (some user)
      if ¬ listed then pure (some .notInWhitelist, s)
      else pure (none, s)

/-- `authorize_operator`. -/
def authorizeOperator (s : CredentialStore) (secret user : Option CodePoints) :
    Script (Option RejectionReason × CredentialStore) :=
  match secret, user with
  | some secret, some user => do
    let (secretContent, s) ← s.readSecretSet
    let (whitelistContent, s) ← s.readWhitelist
    s.checkOperator secretContent whitelistContent secret user
  | _, _ => pure (some .missingCredential, s)

/-- What `validate_at_startup` reads, and its refusals by their messages. -/
def validateAtStartup (s : CredentialStore) (enabled : Bool) :
    Script (Except CodePoints Unit × CredentialStore) := do
  if ¬ enabled then pure (.ok (), s)
  else
    let (content, s) ← s.readSecretSet
    if ¬ content.configured then
      pure (.error (CodePoints.ofString ("Auth_Mode is 'enabled' but no " ++ s.secret.description ++
        " is configured; set the operator_secret_file item of the security section, or disable " ++
        "authentication.")), s)
    else
      match content.error with
      | some message => pure (.error message, s)
      | none =>
        if content.values = ∅ then
          pure (.error (CodePoints.ofString (s.secret.description ++ " ") ++ s.secret.path.getD [] ++
            CodePoints.ofString
              " holds no operator secret: every line is blank or starts with '#'."), s)
        else pure (.ok (), s)

end CredentialStore

/-! ### Methods -/

/-- `PrivilegeLevel`. -/
inductive PrivilegeLevel
  | child
  | operator
  | publicAccess
deriving DecidableEq

/-- `SERVICE_METHOD_PREFIX`. -/
def serviceMethodPrefix : String := "/takler_protocol.TaklerServer/"

/-- `QUERY_METHOD_PREFIX`. -/
def queryMethodPrefix : String := "/takler_protocol.TaklerQuery/"

/-- `PRIVILEGE_BY_METHOD`. -/
def privilegeByMethod : List (String × PrivilegeLevel) :=
  [("RunCommandInit", .child), ("RunCommandComplete", .child), ("RunCommandAbort", .child),
    ("RunCommandEvent", .child), ("RunCommandMeter", .child), ("RunCommandRequeue", .operator),
    ("RunCommandSuspend", .operator), ("RunCommandResume", .operator),
    ("RunCommandRun", .operator), ("RunCommandForce", .operator),
    ("RunCommandFreeDep", .operator), ("RunCommandLoad", .operator),
    ("RunCommandReplace", .operator), ("RunCommandBegin", .operator),
    ("RunCommandServerHalt", .operator), ("RunCommandServerResume", .operator),
    ("RunRequestServerStatus", .operator), ("QueryCoroutine", .operator),
    ("RunRequestPing", .publicAccess)].map fun x => (serviceMethodPrefix ++ x.1, x.2)

/-- `QUERY_PRIVILEGE_BY_METHOD`. -/
def queryPrivilegeByMethod : List (String × PrivilegeLevel) :=
  ["GetCapabilities", "ReadPage", "ReadDetail", "ReadDetailChunk", "ReadSince", "ReadFullSnapshot",
    "ReadFullSnapshotChunk", "CancelFullSnapshot"].map fun n => (queryMethodPrefix ++ n, .operator)

/-- `privilege_for_method`. -/
def privilegeForMethod (method : String) (table : Option (List (String × PrivilegeLevel))) :
    PrivilegeLevel :=
  match table with
  | some table => (table.lookup method).getD .operator
  | none =>
    match queryPrivilegeByMethod.lookup method with
    | some level => level
    | none => (privilegeByMethod.lookup method).getD .operator

/-! ### Credentials of a call -/

/-- A value of the metadata. -/
inductive MetadataValue
  | text (t : CodePoints)
  | bytes (b : List UInt8)
  | other

/-- An entry of the metadata. A key that is no text is `none`. -/
inductive MetadataItem
  | pair (key : Option CodePoints) (value : MetadataValue)
  | other

/-- `_metadata_text`. -/
def metadataText (P : Platform) : MetadataValue → Option CodePoints
  | .bytes b => (P.decodeUtf8 b).filter fun t => !isBlank t
  | .text t => if isBlank t then none else some t
  | .other => none

/-- `CallCredentials`. -/
structure CallCredentials where
  jobPassword : Option CodePoints := none
  secret : Option CodePoints := none
  user : Option CodePoints := none
  peer : Option CodePoints := none

/-- `METADATA_KEY_JOB_PASSWORD`. -/
def metadataKeyJobPassword : CodePoints := CodePoints.ofString "takler-pass"

/-- `METADATA_KEY_SECRET`. -/
def metadataKeySecret : CodePoints := CodePoints.ofString "takler-secret"

/-- `METADATA_KEY_USER`. -/
def metadataKeyUser : CodePoints := CodePoints.ofString "takler-user"

/-- `CREDENTIAL_METADATA_KEYS`. -/
def credentialMetadataKeys : List CodePoints :=
  [metadataKeyJobPassword, metadataKeySecret, metadataKeyUser]

/-- One round of the loop of `from_metadata`. -/
def collectItem (P : Platform) (values : List (CodePoints × CodePoints)) :
    MetadataItem → List (CodePoints × CodePoints)
  | .pair (some key) value =>
    if P.lower key ∉ credentialMetadataKeys ∨ P.lower key ∈ values.map Prod.fst then values
    else
      match metadataText P value with
      | some t => values ++ [(P.lower key, t)]
      | none => values
  | _ => values

/-- `CallCredentials.from_metadata`. -/
def CallCredentials.fromMetadata (P : Platform) (metadata : Option (List MetadataItem))
    (peer : Option CodePoints) : CallCredentials :=
  let values := (metadata.getD []).foldl (collectItem P) []
  { jobPassword := values.lookup metadataKeyJobPassword
    secret := values.lookup metadataKeySecret
    user := values.lookup metadataKeyUser
    peer := peer }

/-! ### The gate -/

/-- `AuthMode`. -/
inductive AuthMode
  | disabled
  | enabled
deriving DecidableEq

/-- `AuthOutcome`. -/
structure AuthOutcome where
  credentials : Option CallCredentials
  rejection : Option RejectionReason := none

/-- `AuthGate`. -/
structure AuthGate where
  authMode : AuthMode
  credentialStore : CredentialStore
  privilegeTable : Option (List (String × PrivilegeLevel)) := none

namespace AuthGate

/-- `_reject_reason`. -/
def rejectReason (g : AuthGate) (level : PrivilegeLevel) (c : CallCredentials) :
    Script (Option RejectionReason × AuthGate) := do
  if level = .child then
    if c.jobPassword.isNone then pure (some .missingCredential, g) else pure (none, g)
  else
    let (reason, credentialStore) ← g.credentialStore.authorizeOperator c.secret c.user
    pure (reason, { g with credentialStore })

/-- `authorize`. -/
def authorize (P : Platform) (g : AuthGate) (method : String)
    (metadata : Option (List MetadataItem)) (peer : Option CodePoints) :
    Script (AuthOutcome × AuthGate) := do
  let level := privilegeForMethod method g.privilegeTable
  if level = .publicAccess then pure ({ credentials := none }, g)
  else
    let credentials := CallCredentials.fromMetadata P metadata peer
    if g.authMode ≠ .enabled then pure ({ credentials := some credentials }, g)
    else
      let (rejection, g) ← g.rejectReason level credentials
      pure ({ credentials := some credentials, rejection }, g)

end AuthGate

/-! ### The files over time -/

/-- What a file is between two edits. -/
structure Version where
  fingerprint : Fingerprint
  content : List UInt8

/-- The entries of a version; one that cannot be decoded has none. -/
def Version.entries (P : Platform) (v : Version) : Finset CodePoints :=
  ((P.decodeFile v.content).map parseCredentialLines).getD ∅

/-- What was done to a file. -/
inductive Attempt
  | statted
  | statFailed
  | read
  | readFailed
deriving DecidableEq

/-- The versions of each file, the latest first, and what the store did to it, the earliest
first. -/
structure World where
  history : CodePoints → List Version
  log : CodePoints → List Attempt

namespace World

/-- The file that is there. -/
def current (w : World) (path : CodePoints) : Option Version := (w.history path).head?

def note (w : World) (path : CodePoints) (x : Attempt) : World :=
  { w with log := Function.update w.log path (w.log path ++ [x]) }

def edit (w : World) (path : CodePoints) (v : Version) : World :=
  { w with history := Function.update w.history path (v :: w.history path) }

/-- A file is edited, and gets a fingerprint that it never had. -/
def Edit (w w' : World) : Prop :=
  ∃ path v, v.fingerprint ∉ (w.history path).map Version.fingerprint ∧ w' = w.edit path v

/-- The versions that a file has at some moment between two worlds. -/
def during (w w' : World) (path : CodePoints) : List Version :=
  (w'.history path).take ((w'.history path).length - (w.history path).length + 1)

/-- What the store did to a file between two worlds. -/
def attempts (w w' : World) (path : CodePoints) : List Attempt :=
  (w'.log path).drop (w.log path).length

end World

/-- The answers of the file system: each operation sees the file that is there, or fails. -/
def act (P : Platform) (w : World) : (i : FileOp) → i.Answer → World → Prop
  | .stat path, .ok fingerprint, w' =>
    (w.current path).map Version.fingerprint = some fingerprint ∧ w' = w.note path .statted
  | .stat path, .error _, w' => w' = w.note path .statFailed
  | .readText path, .ok text, w' =>
    (w.current path).bind (fun v => P.decodeFile v.content) = some text ∧ w' = w.note path .read
  | .readText path, .error _, w' => w' = w.note path .readFailed

/-- The file system, with edits at any time. -/
def setting (P : Platform) : Setting FileOp.Answer World where
  env := World.Edit
  act := act P

/-! ### Calls one after the other -/

/-- The gate and the files. -/
structure Server where
  gate : AuthGate
  world : World

/-- A call, the check at the start, or an edit between them. -/
inductive Server.Step (P : Platform) : Server → Server → Prop
  | edit {g : AuthGate} {w w' : World} (h : w.Edit w') : Step P ⟨g, w⟩ ⟨g, w'⟩
  | authorize {g g' : AuthGate} {w w' : World} {method : String}
      {metadata : Option (List MetadataItem)} {peer : Option CodePoints} {outcome : AuthOutcome}
      (h : (setting P).Exec (g.authorize P method metadata peer) w (outcome, g') w') :
      Step P ⟨g, w⟩ ⟨g', w'⟩
  | validate {g : AuthGate} {s : CredentialStore} {w w' : World} {result : Except CodePoints Unit}
      (h : (setting P).Exec (g.credentialStore.validateAtStartup (g.authMode = .enabled)) w
        (result, s) w') : Step P ⟨g, w⟩ ⟨{ g with credentialStore := s }, w'⟩

/-- The servers that a server with an unread store can become. -/
def Server.Reachable (P : Platform) (s : Server) : Prop :=
  ∃ mode secretFile whitelistFile table w,
    Relation.ReflTransGen (Server.Step P) ⟨⟨mode, .new secretFile whitelistFile, table⟩, w⟩ s

end Takler.Auth
