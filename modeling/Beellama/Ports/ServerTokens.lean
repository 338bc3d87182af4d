import Beellama.Verified.ByteCodec
import Beellama.Verified.OrderedMap

/-!
# `server_tokens`

The tokens of a prompt, with `LLAMA_TOKEN_NULL` at the positions of media chunks, and the map from their
start indices to the chunks.  A mutator returns what it threw, if anything, with the value it leaves
behind.
-/

namespace Beellama.Ports

open Beellama.Verified

/-- `LLAMA_TOKEN_NULL`; a `llama_token` is an `int32_t`. -/
def tokenNull : Int32 := -1

/-- The bits of a token. -/
def tokenWord (tok : Int32) : Nat := tok.toUInt32.toNat

def wordToken (n : Nat) : Int32 := (UInt32.ofNat n).toInt32

/-- The interface of `mtmd_input_chunk`, with a faithful copy, save and load. -/
structure Mtmd (χ : Type) where
  /-- the tokens of a text chunk -/
  textTokens : χ → Option (List Int32)
  nTokens : χ → Nat
  id : χ → String
  copy : χ → χ
  save : χ → List UInt8
  load : List UInt8 → Option χ
  copy_eq : ∀ c, copy c = c
  load_save : ∀ c, load (save c) = some c
  save_ne_nil : ∀ c, save c ≠ []

structure ServerTokens (χ : Type) where
  hasMtmd : Bool
  /-- `map_idx_to_media` -/
  media : OrderedMap Nat χ
  tokens : List Int32
  deriving DecidableEq

/-- What a mutator leaves. -/
abbrev TokensResult (χ : Type) := Except String Unit × ServerTokens χ

namespace ServerTokens

variable {χ : Type} (mtmd : Mtmd χ)

def size (s : ServerTokens χ) : Nat := s.tokens.length

/-- `server_tokens(tokens, has_mtmd)` -/
def ofTokens (tokens : List Int32) (hasMtmd : Bool) : ServerTokens χ :=
  ⟨hasMtmd, OrderedMap.empty, tokens⟩

/-- `find_chunk` -/
def findChunk (s : ServerTokens χ) (idx : Nat) : Except String χ :=
  match s.media.find idx with
  | some c => .ok c
  | none => .error "Chunk not found"

/-- `push_back(token)` -/
def pushBack (s : ServerTokens χ) (tok : Int32) : TokensResult χ :=
  if tok = tokenNull then (.error "Invalid token", s)
  else (.ok (), { s with tokens := s.tokens ++ [tok] })

/-- A loop of `push_back(token)` -/
def pushAll (s : ServerTokens χ) : List Int32 → TokensResult χ
  | [] => (.ok (), s)
  | tok :: rest =>
    match s.pushBack tok with
    | (.ok _, s') => s'.pushAll rest
    | (.error e, s') => (.error e, s')

/-- `push_back(chunk)` -/
def pushChunk (s : ServerTokens χ) (c : χ) : TokensResult χ :=
  match mtmd.textTokens c with
  | some toks => s.pushAll toks
  | none =>
    if s.hasMtmd then
      (.ok (), { s with
        tokens := s.tokens ++ List.replicate (mtmd.nTokens c) tokenNull
        media := s.media.insert s.size (mtmd.copy c) })
    else (.error "GGML_ASSERT(has_mtmd)", s)

/-- The loop of `push_back(server_tokens &)` over the media of the argument from the iterator
on.  It does not advance the iterator. -/
def copyMedia (startIdx : Nat) (it : List (Nat × χ)) : Nat → ServerTokens χ →
    Option (ServerTokens χ)
  | 0, _ => none
  | fuel + 1, s =>
    match it with
    | [] => some s
    | (idx, c) :: _ =>
      copyMedia startIdx it fuel
        { s with media := s.media.insert (startIdx + idx) (mtmd.copy c) }

/-- `push_back(server_tokens &)` -/
def append (fuel : Nat) (s other : ServerTokens χ) : Option (TokensResult χ) :=
  match s.pushAll other.tokens with
  | (.error e, s') => some (.error e, s')
  | (.ok _, s') =>
    if other.hasMtmd then
      if s'.hasMtmd then
        (copyMedia mtmd s.size other.media.entries fuel s').map fun s'' => (.ok (), s'')
      else some (.error "GGML_ASSERT(has_mtmd)", s')
    else some (.ok (), s')

def insert (s : ServerTokens χ) (inpTokens : List Int32) : ServerTokens χ :=
  { s with tokens := s.tokens ++ inpTokens }

def clear (s : ServerTokens χ) : ServerTokens χ := { s with media := OrderedMap.empty, tokens := [] }

def clone (s : ServerTokens χ) : ServerTokens χ where
  hasMtmd := s.hasMtmd
  tokens := s.tokens
  media := s.media.entries.foldl (fun m e => m.insert e.1 (mtmd.copy e.2)) OrderedMap.empty

/-- The token at an index. -/
def tokenAt (s : ServerTokens χ) (i : Nat) : Int32 := s.tokens.getD i 0

/-- `keep_first`, for `n ≤ size` -/
def keepFirst (s : ServerTokens χ) (n : Nat) : TokensResult χ :=
  if s.hasMtmd then
    if n = s.size then (.ok (), s)
    else
      let kept := { s with
        media := ⟨s.media.entries.filter (·.1 < n), s.media.sorted.filter _⟩
        tokens := s.tokens.take n }
      if 0 < n ∧ s.tokenAt (n - 1) = tokenNull ∧ s.tokenAt n = tokenNull then
        match s.findChunk (n - 1) with
        | .ok _ => (.ok (), kept)
        | .error e => (.error e, s)
      else (.ok (), kept)
  else (.ok (), { s with tokens := s.tokens.take n })

/-! ## The common prefix -/

/-- The loop of `get_common_prefix` with media, from index `i` on.  It has at most `maxIdx`
turns. -/
def commonPrefixFrom (a b : ServerTokens χ) (maxIdx : Nat) : Nat → Nat → Except String Nat
  | 0, _ => .ok maxIdx
  | turns + 1, i =>
    if maxIdx ≤ i then .ok maxIdx
    else if a.tokenAt i = tokenNull ∧ b.tokenAt i = tokenNull then do
      let aChunk ← a.findChunk i
      let bChunk ← b.findChunk i
      if mtmd.id aChunk = mtmd.id bChunk ∧ mtmd.nTokens aChunk = mtmd.nTokens bChunk then
        if mtmd.nTokens aChunk = 0 then .error "Invalid media chunk"
        else commonPrefixFrom a b maxIdx turns (i + mtmd.nTokens aChunk)
      else return i
    else if a.tokenAt i = b.tokenAt i then commonPrefixFrom a b maxIdx turns (i + 1)
    else return i

/-- The first index at which two lists differ. -/
def firstDifference : List Int32 → List Int32 → Nat
  | x :: xs, y :: ys => if x = y then firstDifference xs ys + 1 else 0
  | _, _ => 0

/-- `get_common_prefix` -/
def getCommonPrefix (a b : ServerTokens χ) : Except String Nat :=
  if a.hasMtmd then commonPrefixFrom mtmd a b (min a.size b.size) (min a.size b.size) 0
  else .ok (firstDifference a.tokens b.tokens)

/-! ## The packed format -/

/-- `SERVER_TOKENS_STATE_VERSION` -/
def stateVersion : Nat := 1

/-- `server_tokens_state_u32` -/
def stateU32 (value : Nat) : Except String Nat :=
  if 2 ^ 32 ≤ value then .error "Server tokens state is too large" else .ok value

/-- `write(const std::vector<T> &)`, for values of `k` bytes -/
def writeVector (k : Nat) (values : List Nat) : Except String (List UInt8) := do
  return leBytes 4 (← stateU32 values.length) ++ leWords k values

/-- `write_media_chunk` -/
def writeMediaChunk (c : χ) : Except String (List UInt8) :=
  if mtmd.save c = [] then .error "Cannot serialize media chunk in server tokens"
  else writeVector 1 ((mtmd.save c).map UInt8.toNat)

/-- `take`: fill up to whole tokens. -/
def padToTokens (data : List UInt8) : List UInt8 :=
  data ++ List.replicate ((data.length + 3) / 4 * 4 - data.length) 0

def serialize (s : ServerTokens χ) : Except String (List UInt8) := do
  let tokens ← writeVector 4 (s.tokens.map tokenWord)
  let mediaKeys ← s.media.entries.mapM fun item => stateU32 item.1
  let keys ← writeVector 4 mediaKeys
  let chunks ← s.media.entries.mapM fun item => writeMediaChunk mtmd item.2
  return padToTokens
    (leBytes 4 (tokenWord tokenNull) ++ leBytes 4 stateVersion ++ tokens ++ keys ++ chunks.flatten)

/-- The packed bytes as tokens: what a slot file holds. -/
def packTokens (bytes : List UInt8) : List Int32 :=
  (readWords 4 (bytes.length / 4) bytes).map wordToken

section Reader

open StagedReader

/-- `server_tokens_state_reader`; it stages nothing. -/
abbrev StateReader (α : Type) := StagedReader Empty String α

def endOfState : String := "Unexpected end of server tokens state"

def readU32 : StateReader Nat := leNat <$> take endOfState 4

/-- `read_vector`, for values of `k` bytes -/
def readVector (k : Nat) : StateReader (List Nat) := do
  let n ← readU32
  let left ← remaining
  check (n ≤ left / k) endOfState
  readWords k n <$> take endOfState (n * k)

/-- One media chunk. -/
def readMediaChunk : StateReader χ := do
  let data ← readVector 1
  check (data ≠ []) "Cannot load media chunk from server tokens state"
  match mtmd.load (data.map UInt8.ofNat) with
  | some c => return c
  | none => fail "Cannot load media chunk from server tokens state"

/-- The media chunks of some keys. -/
def readMedia : List Nat → OrderedMap Nat χ → StateReader (OrderedMap Nat χ)
  | [], media => return media
  | key :: rest, media => do
      let c ← readMediaChunk mtmd
      readMedia rest (media.insert key c)

/-- What follows the format marker. -/
def readState (hasMtmd : Bool) : StateReader (ServerTokens χ) := do
  let version ← readU32
  check (version = stateVersion) "Unsupported server tokens state version"
  let tokens ← readVector 4
  let mediaKeys ← readVector 4
  check (mediaKeys = [] ∨ hasMtmd = true) "Cannot restore media tokens without an mmproj"
  let media ← readMedia mtmd mediaKeys OrderedMap.empty
  let left ← remaining
  check (left < 4) "Trailing data in server tokens state"
  return ⟨hasMtmd, media, tokens.map wordToken⟩

end Reader

def deserialize (packed : List Int32) (hasMtmd : Bool) : Except String (ServerTokens χ) :=
  if packed.head? = some tokenNull then
    (readState mtmd hasMtmd (leWords 4 (packed.tail.map tokenWord))).map Prod.fst
  else .ok (ofTokens packed hasMtmd)

/-- `deserialize(serialize())`, in place of the value. -/
def reload (s : ServerTokens χ) : TokensResult χ :=
  match s.serialize mtmd with
  | .error e => (.error e, s)
  | .ok data =>
    match deserialize mtmd (packTokens data) s.hasMtmd with
    | .error e => (.error e, s)
    | .ok s' => (.ok (), s')

end ServerTokens

/-! ## Runs -/

/-- The operations that edit a value. -/
inductive TokensOp (χ : Type)
  | pushBack (tok : Int32)
  | pushChunk (c : χ)
  | append (other : ServerTokens χ)
  | insert (inpTokens : List Int32)
  | clone
  | clear
  | reload
  | keepFirst (n : Nat)

/-- An operation, with fuel for the loop that may not end. -/
def TokensOp.run {χ : Type} (mtmd : Mtmd χ) (fuel : Nat) (s : ServerTokens χ) :
    TokensOp χ → Option (TokensResult χ)
  | .pushBack tok => some (s.pushBack tok)
  | .pushChunk c => some (s.pushChunk mtmd c)
  | .append other => s.append mtmd fuel other
  | .insert inpTokens => some (.ok (), s.insert inpTokens)
  | .clone => some (.ok (), s.clone mtmd)
  | .clear => some (.ok (), s.clear)
  | .reload => some (s.reload mtmd)
  | .keepFirst n => some (s.keepFirst n)

end Beellama.Ports
