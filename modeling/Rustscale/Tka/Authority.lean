import Rustscale.Tka.Chonk

/-! The key authority: verification of AUMs, the choice between forks, and the state recomputed from
storage. -/
namespace Rustscale.Tka
open Checks Chonk

def maxScanIterations : ℕ := 2000

/-- Why an operation on an authority fails. -/
inductive AuthorityError where
  | storage (error : ChonkError)
  | invalidAum (reason : String)
  | invalidState (reason : String)
  | signature (reason : String)
  | empty
  | distinctChains
  | traversalLimit (limit : ℕ)
  | missingParent (hash : AumHash)
  | emptyInform
  | signing (reason : String)
  | nodeAuthorization (reason : String)
  deriving DecidableEq

def AuthorityError.display : AuthorityError → String
  | storage error => error.display
  | invalidAum reason => s!"invalid AUM: {reason}"
  | invalidState reason => s!"invalid authority state: {reason}"
  | signature reason => s!"signature verification failed: {reason}"
  | empty => "AUM chain has no candidates"
  | distinctChains => "multiple distinct AUM chains have no active-ancestor intersection"
  | traversalLimit limit => s!"AUM traversal exceeded {limit} updates"
  | missingParent hash => s!"AUM chain is missing parent {hash.display}"
  | emptyInform => "inform requires at least one update"
  | signing reason => s!"signing AUM failed: {reason}"
  | nodeAuthorization reason => s!"node signature is not authorized: {reason}"

/-- An authority: the head of its chain, the oldest ancestor and the state there. -/
structure Authority where
  head : Aum
  oldestAncestor : Aum
  state : State
  deriving DecidableEq

section Verify
variable [Crypto]

def verifySignatures (state : State) (digest : Bytes) (index : ℕ) :
    List Signature → Except AuthorityError Unit
  | [] => .ok ()
  | sig :: rest => do
    let key ← okOr (state.key sig.keyId)
      (.signature s!"signature {index} uses an untrusted key")
    ensure (key.kind == .key25519) (.signature s!"signature {index} uses unsupported key kind")
    ensure (key.publicKey.length == 32) (.signature s!"signature {index} key has invalid length")
    ensure (Crypto.isVerifyingKey key.publicKey) (.signature s!"signature {index} key is invalid")
    ensure (sig.signature.length == 64) (.signature s!"signature {index} has invalid length")
    ensure (Crypto.verifyStrict key.publicKey digest sig.signature)
      (.signature s!"signature {index} is invalid")
    verifySignatures state digest (index + 1) rest

def checkLastKey (aum : Aum) (state : State) : Except AuthorityError Unit :=
  match aum.messageKind, state.keys with
  | .removeKey, [key] => do
    let only ← key.id.mapError .invalidState
    ensure (aum.keyId != some only) (.invalidAum "cannot remove the last trusted key")
  | _, _ => .ok ()

def checkParent (aum : Aum) (state : State) (genesis : Bool) : Except AuthorityError Unit :=
  if genesis then .ok ()
  else do
    let expected ← okOr (state.lastAumHash.bind AumHash.fromSlice)
      (.invalidState "state has no valid head")
    ensure (aum.parent == some expected)
      (.invalidAum s!"parent does not match state head {expected.display}")

def verifyAum (aum : Aum) (state : State) (genesis : Bool) : Except AuthorityError Unit := do
  aum.validate.mapError .invalidAum
  checkParent aum state genesis
  ensure (!aum.signatures.isEmpty) (.invalidAum "unsigned AUM")
  verifySignatures state aum.sigHash 0 aum.signatures
  checkLastKey aum state

end Verify

/-- The votes of the trusted keys among the signers not yet seen. -/
def weightFrom (state : State) (seen : List Bytes) : List Signature → ℕ
  | [] => 0
  | sig :: rest =>
    if seen.contains sig.keyId then weightFrom state seen rest
    else ((state.key sig.keyId).elim 0 Key.votes) + weightFrom state (sig.keyId :: seen) rest

def signatureWeight (state : State) (aum : Aum) : ℕ := weightFrom state [] aum.signatures

section Choice
variable [Crypto]

/-- More votes first, key removals first, then the hash. -/
def compareCandidates (state : State) (left right : Aum) : Ordering :=
  ((compare (signatureWeight state right) (signatureWeight state left)).then
    (match left.messageKind == .removeKey, right.messageKind == .removeKey with
      | true, false => .lt
      | false, true => .gt
      | _, _ => .eq)).then
    (compare left.hash right.hash)

/-- The first of the sorted candidates, of which there is at least one. -/
def pickNext (state : State) (candidate : Aum) (rest : List Aum) : Aum :=
  ((candidate :: rest).insertionSort fun l r => compareCandidates state l r ≠ .gt).headD candidate

end Choice

section Open
variable {σ : Type} [Crypto] [Chonk σ]

/-- The loop of `path_to_root`, with the fuel left and the hashes seen. -/
def pathFrom (s : σ) : ℕ → Aum → List AumHash → Except AuthorityError (List Aum)
  | 0, _, _ => .error (.traversalLimit maxScanIterations)
  | fuel + 1, current, seen =>
    if seen.contains current.hash then .error (.invalidState "cycle in AUM chain")
    else
      match current.parent with
      | none => .ok [current]
      | some parent =>
        match aum s parent with
        | .ok aum => do
          let path ← pathFrom s fuel aum (current.hash :: seen)
          pure (current :: path)
        | .error error =>
          if error.isNotFound && current.messageKind == .checkpoint then .ok [current]
          else if error.isNotFound then .error (.missingParent parent)
          else .error (.storage error)

variable (s : σ)

def pathToRoot (head : Aum) : Except AuthorityError (List Aum) :=
  pathFrom s maxScanIterations head []

def replay (state : State) : List Aum → Except AuthorityError State
  | [] => .ok state
  | update :: rest => do
    verifyAum update state false
    let next ← (state.applyVerified update).mapError .invalidState
    replay next rest

/-- The check of the oldest retained AUM. A compacted anchor was verified before its ancestry was
purged. -/
def checkAnchor (genesis : Aum) (state : State) : Except AuthorityError Unit :=
  if genesis.parent.isSome then do
    genesis.validate.mapError .invalidAum
    ensure (!genesis.signatures.isEmpty) (.invalidAum "unsigned retained checkpoint")
  else verifyAum genesis state true

def anchorState (genesis : Aum) : Except AuthorityError State := do
  ensure (genesis.messageKind == .checkpoint)
    (.invalidState "oldest retained AUM must be a checkpoint")
  let state ← okOr genesis.state (.invalidState "retained checkpoint has no state")
  checkAnchor genesis state
  pure (state.withLastAum genesis)

def stateAt (wanted : AumHash) : Except AuthorityError State := do
  let top ← (aum s wanted).mapError .storage
  let path ← pathToRoot s top
  match path.reverse with
  | [] => .error (.invalidState "empty AUM path")
  | genesis :: updates => do
    let state ← anchorState genesis
    replay state updates

def verifyAll (state : State) : List Aum → Except AuthorityError Unit
  | [] => .ok ()
  | child :: rest => do
    verifyAum child state false
    verifyAll state rest

def forwardFrom (s : σ) : ℕ → Aum → State → Except AuthorityError (Aum × State)
  | 0, _, _ => .error (.traversalLimit maxScanIterations)
  | fuel + 1, current, state => do
    let children ← (childAums s current.hash).mapError .storage
    match children with
    | [] => pure (current, state)
    | child :: rest => do
      verifyAll state (child :: rest)
      let next := pickNext state child rest
      let state ← (state.applyVerified next).mapError .invalidState
      forwardFrom s fuel next state

def fastForward (oldest : Aum) : Except AuthorityError (Aum × State) := do
  let state ← stateAt s oldest.hash
  forwardFrom s maxScanIterations oldest state

abbrev Roots := AList fun _ : AumHash => Aum × Bool

def Roots.add (roots : Roots) (root : Aum) (intersectsHint : Bool) : Roots :=
  match roots.lookup root.hash with
  | some entry => roots.insert root.hash (entry.1, entry.2 || intersectsHint)
  | none => roots.insert root.hash (root, intersectsHint)

def collectRoots (s : σ) (hint : Option AumHash) (roots : Roots) :
    List Aum → Except AuthorityError Roots
  | [] => .ok roots
  | head :: rest => do
    let path ← pathToRoot s head
    -- the path always contains the head
    let root := path.getLastD head
    collectRoots s hint
      (roots.add root (hint.any fun hint => path.any fun aum => aum.hash == hint)) rest

def selectOldest (roots : Roots) : Except AuthorityError Aum :=
  match roots.entries.map Sigma.snd with
  | [root] => .ok root.1
  | roots =>
    match roots.filter Prod.snd with
    | [root] => .ok root.1
    | _ => .error .distinctChains

def Authority.open : Except AuthorityError Authority := do
  let heads ← (heads s).mapError .storage
  ensure (!heads.isEmpty) .empty
  let hint ← (lastActiveAncestor s).mapError .storage
  let roots ← collectRoots s hint ∅ heads
  let oldestAncestor ← selectOldest roots
  let (head, state) ← fastForward s oldestAncestor
  pure { head, oldestAncestor, state }

def checkBootstrap (bootstrap : Aum) : Except AuthorityError Unit := do
  let heads ← (heads s).mapError .storage
  ensure heads.isEmpty (.invalidState "Chonk is not empty")
  ensure (bootstrap.messageKind == .checkpoint) (.invalidAum "bootstrap AUM must be a checkpoint")
  let genesisState ← okOr bootstrap.state (.invalidAum "bootstrap checkpoint has no state")
  verifyAum bootstrap genesisState true

/-- Bootstrap empty storage from a signed checkpoint: the result and the storage. -/
def Authority.bootstrap (s : σ) (bootstrap : Aum) : Except AuthorityError Authority × σ :=
  match checkBootstrap s bootstrap with
  | .error error => (.error error, s)
  | .ok () =>
    match storeVerifiedAums s [bootstrap] with
    | .error error => (.error (.storage error), s)
    | .ok (s, _) =>
      match setLastActiveAncestor s bootstrap.hash with
      | .error error => (.error (.storage error), s)
      | .ok s => (Authority.open s, s)

abbrev AumSigner := Bytes → Except String (List Signature)

def Authority.create (state : State) (signer : AumSigner) :
    Except AuthorityError (Authority × Aum) × σ :=
  let genesis : Aum :=
    { messageKind := .checkpoint, prevAumHash := none, key := none, keyId := none,
      state := some state, votes := none, metadata := none, signatures := [] }
  match genesis.validate with
  | .error error => (.error (.invalidState error), s)
  | .ok () =>
    match signer genesis.sigHash with
    | .error error => (.error (.signing error), s)
    | .ok signatures =>
      let genesis := { genesis with signatures := signatures }
      match Authority.bootstrap s genesis with
      | (.error error, s) => (.error error, s)
      | (.ok authority, s) => (.ok (authority, genesis), s)

/-- The state after `parent`: one known from this batch, or else from storage. -/
def parentState (states : AumHash → Option State) (parent : AumHash) :
    Except AuthorityError State :=
  match states parent with
  | some state => .ok state
  | none => stateAt s parent

/-- The validation loop of `inform`: the updates to store. `states` holds the state after the head
and each update staged so far. -/
def stage (s : σ) (index : ℕ) (states : AumHash → Option State) (staged : List Aum) :
    List Aum → Except AuthorityError (List Aum)
  | [] => .ok staged
  | update :: rest =>
    match aum s update.hash with
    | .ok _ => stage s (index + 1) states staged rest
    | .error error =>
      if error.isNotFound then do
        let parent ← okOr update.parent (.invalidAum s!"update {index} has no valid parent")
        let state ← parentState s states parent
        (verifyAum update state false).mapError fun error =>
          .invalidAum s!"update {index}: {error.display}"
        let next ← (state.applyVerified update).mapError fun error =>
          .invalidState s!"update {index}: {error}"
        stage s (index + 1) (Function.update states update.hash (some next))
          (staged ++ [update]) rest
      else .error (.storage error)

def Authority.initialStates (a : Authority) : AumHash → Option State :=
  Function.update (fun _ => none) a.head.hash (some a.state)

/-- Validate all updates before storing any, then recompute the active chain. -/
def Authority.inform (a : Authority) (s : σ) (updates : List Aum) :
    Except AuthorityError Unit × σ × Authority :=
  if updates.isEmpty then (.error .emptyInform, s, a)
  else
    match stage s 0 a.initialStates [] updates with
    | .error error => (.error error, s, a)
    | .ok staged =>
      match storeVerifiedAums s staged with
      | .error error => (.error (.storage error), s, a)
      | .ok (s, _) =>
        match Authority.open s with
        | .error error => (.error error, s, a)
        | .ok replacement => (.ok (), s, replacement)

end Open

end Rustscale.Tka
