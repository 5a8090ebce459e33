import Mathlib.Logic.Function.Basic
import Toktier.Chunked.Admission

/-!
# The SGLang adapter

A wrapper answers encodes in place of a tokenizer that it was supplied with, as long as this one
is the tokenizer that TokTier loaded. The core sections of the two are compared at construction,
and again when a forwarded change has put up the stale flag, or when a cheap fingerprint of the
supplied object is no longer the one that was taken after the last comparison. When they differ,
the supplied object answers for good.

Any thread can change the supplied object, through the wrapper or behind its back, between two
steps of an admission check. A fingerprint and a comparison read the object at one moment.

## Main definitions

* `checkCoreIdentity`, `liveFingerprint`: the comparison, and the fingerprint.
* `World`: the wrapper, the supplied object, the encodes and the changes under way.
* `World.step`: one statement of an encode or of a change.
* `Reach`: the states that allowed acts reach.
-/
namespace Toktier.Sglang

open Chunked

/-! ### JSON values -/

mutual

/-- Equality of parsed values, as Python has it: objects have no order, and `True` is 1. -/
def pyEq : Json → Json → Bool
  | .null, y => match y with
    | .null => true
    | _ => false
  | .bool a, y => match y with
    | .bool b => a == b
    | .num b => (if a then 1 else 0) == b
    | _ => false
  | .num a, y => match y with
    | .bool b => a == (if b then 1 else 0)
    | .num b => a == b
    | _ => false
  | .str a, y => match y with
    | .str b => a == b
    | _ => false
  | .arr xs, y => match y with
    | .arr ys => pyEqItems xs ys
    | _ => false
  | .obj xs, y => match y with
    | .obj ys => xs.length == ys.length && pyEqFields xs ys
    | _ => false
termination_by structural x => x

def pyEqItems : List Json → List Json → Bool
  | [], ys => ys.isEmpty
  | x :: xs, ys => match ys with
    | [] => false
    | y :: ys => pyEq x y && pyEqItems xs ys
termination_by structural xs => xs

def pyEqFields : List (String × Json) → List (String × Json) → Bool
  | [], _ => true
  | x :: xs, ys => pyEqField x ys && pyEqFields xs ys
termination_by structural xs => xs

def pyEqField : String × Json → List (String × Json) → Bool
  | (key, x), ys => match ys.lookup key with
    | some y => pyEq x y
    | none => false
termination_by structural x => x

end

/-- The `type` of a component. -/
def componentKind (fields : List (String × Json)) : Option String :=
  (fields.lookup "type").bind Json.asStr

mutual

/-- A component without what decides character offsets, not ids. -/
def withoutOffsetFacts : Json → Json
  | .obj fields =>
    if componentKind fields = some "Sequence" then .obj (withoutInFields fields)
    else if componentKind fields = some "ByteLevel" then
      .obj (fields.filter fun field => field.1 ≠ "trim_offsets")
    else .obj fields
  | component => component
termination_by structural x => x

def withoutInFields : List (String × Json) → List (String × Json)
  | [] => []
  | field :: fields => withoutInField field :: withoutInFields fields
termination_by structural x => x

def withoutInField : String × Json → String × Json
  | (key, value) =>
    if key ∈ ["pretokenizers", "processors", "normalizers"] then (key, withoutInValue value)
    else (key, value)
termination_by structural x => x

/-- The members of a sequence, where they are a list. -/
def withoutInValue : Json → Json
  | .arr members => .arr (withoutInMembers members)
  | value => value
termination_by structural x => x

def withoutInMembers : List Json → List Json
  | [] => []
  | member :: members => withoutOffsetFacts member :: withoutInMembers members
termination_by structural x => x

end

/-! ### The two tokenizers -/

structure AddedToken where
  id : ℕ
  content : String
  singleWord : Bool
  lstrip : Bool
  rstrip : Bool
  normalized : Bool
  special : Bool
  deriving DecidableEq

def AddedToken.json (token : AddedToken) : Json :=
  .obj [("id", .num token.id), ("content", .str token.content),
    ("single_word", .bool token.singleWord), ("lstrip", .bool token.lstrip),
    ("rstrip", .bool token.rstrip), ("normalized", .bool token.normalized),
    ("special", .bool token.special)]

/-- What the fingerprint reads of a backend; each part can be missing or raise. -/
inductive Part
  | addedTokens
  | normalizer
  | preTokenizer
  | postProcessor
  | truncation
  | padding
  deriving DecidableEq

/-- The fast backend of a supplied tokenizer. A component is the JSON that it is serialized as,
and the added tokens are in the order of their ids. -/
structure Backend where
  encodeSpecialTokens : Bool
  model : Json
  normalizer : Json
  preTokenizer : Json
  postProcessor : Json
  addedTokens : List AddedToken
  truncation : Json
  padding : Json
  /-- There is a `to_str`. -/
  serializable : Bool
  /-- What it raises, if it does. -/
  toStrError : Option String
  /-- The parts that cannot be read one by one. -/
  hidden : List Part

/-- The serialized backend, parsed. -/
def Backend.document (b : Backend) : Json :=
  .obj [("truncation", b.truncation), ("padding", b.padding),
    ("added_tokens", .arr (b.addedTokens.map AddedToken.json)), ("normalizer", b.normalizer),
    ("pre_tokenizer", b.preTokenizer), ("post_processor", b.postProcessor), ("model", b.model)]

/-- A tokenizer that the wrapper is supplied with. -/
structure Supplied where
  splitSpecialTokens : Bool
  backend : Option Backend

/-- The loader face that TokTier executes against. -/
structure Subject where
  /-- The face, parsed, or what reading it raises; nothing when the subject exposes none. -/
  face : Option (Except String Json)
  /-- The face as the live library writes it, when it can. -/
  canonical : Option Json

/-! ### The comparison -/

/-- The sections that decide the core id stream. -/
def CORE_SECTIONS : List String :=
  ["model", "normalizer", "pre_tokenizer", "post_processor", "added_tokens", "truncation",
    "padding"]

/-- The values of `CORE_SECTIONS` in a document; a section that is missing is null. -/
def coreSections (document : Json) : List Json :=
  CORE_SECTIONS.map fun name =>
    let value := (document.get name).getD .null
    if name ∈ ["pre_tokenizer", "post_processor"] then withoutOffsetFacts value else value

/-- The names of the sections in which the two differ. -/
def differing (live face : List Json) : List String :=
  (CORE_SECTIONS.zip (live.zip face)).filterMap fun p =>
    if pyEq p.2.1 p.2.2 then none else some p.1

inductive Status
  | skipped
  | equivalent
  | mismatch
  | unavailable
  deriving DecidableEq

structure Verdict where
  status : Status
  reason : Option String
  sections : List String
  deriving DecidableEq

def unavailable (reason : String) : Verdict := ⟨.unavailable, some reason, []⟩

/-- The effective `split_special_tokens` setting of the supplied object. -/
def splitsSpecialTokens (o : Supplied) : Bool :=
  o.splitSpecialTokens || o.backend.any Backend.encodeSpecialTokens

/-- The verdict on sections that differ from those of the face as it is. -/
def verdictOn (sections : List String) : Verdict :=
  if sections = [] then ⟨.equivalent, none, []⟩
  else ⟨.mismatch, some ("core configuration differs in " ++ ", ".intercalate sections), sections⟩

/-- Compare the supplied tokenizer's core configuration with TokTier's. -/
def checkCoreIdentity (subject : Subject) (o : Supplied) : Verdict :=
  match o.backend.filter Backend.serializable with
  | none => unavailable "the supplied tokenizer has no serializable fast backend"
  | some backend =>
    if splitsSpecialTokens o then
      ⟨.mismatch, some "split_special_tokens is set on the supplied tokenizer",
        ["split_special_tokens"]⟩
    else match subject.face, backend.toStrError with
      | none, _ => unavailable "the toktier subject exposes no loader face"
      | some _, some error => unavailable ("serialization failed: " ++ error)
      | some (.error error), none => unavailable ("serialization failed: " ++ error)
      | some (.ok face), none =>
        if face.isObject = false then unavailable "serialization failed: AttributeError"
        else
          let live := coreSections backend.document
          if differing live (coreSections face) = [] then verdictOn []
          -- the file may be older than what the live library writes
          else verdictOn (differing live (coreSections (subject.canonical.getD face)))

/-! ### The fingerprint -/

structure Fingerprint where
  added : List AddedToken
  split : Bool
  normalizer : Json
  preTokenizer : Json
  postProcessor : Json
  truncation : Json
  padding : Json
  deriving DecidableEq

/-- A cheap digest of what can change about the supplied object; nothing when some part of it
cannot be read. The model is not read. -/
def liveFingerprint (o : Supplied) : Option Fingerprint :=
  o.backend.bind fun backend =>
    if backend.hidden = [] then
      some ⟨backend.addedTokens, splitsSpecialTokens o, backend.normalizer, backend.preTokenizer,
        backend.postProcessor, backend.truncation, backend.padding⟩
    else none

/-! ### Encodes and changes -/

/-- How far an encode has come. -/
inductive Phase
  | begun
  /-- `_tok` is there; the lock is next. -/
  | waiting
  | locked
  /-- The stale flag was down. -/
  | unmarked
  | comparing
  | compared (verdict : Verdict)
  /-- The flag was put down after the comparison. -/
  | cleared (verdict : Verdict)
  | admitted
  /-- The pool has failed, and the subject is still there. -/
  | serial
  /-- The supplied object has answered. -/
  | delegated
  /-- TokTier has answered. -/
  | accelerated
  | failed
  deriving DecidableEq

/-- The admission check has not yet looked at the object for the last time. -/
def Phase.undecided : Phase → Bool
  | .begun | .waiting | .locked | .unmarked | .comparing => true
  | _ => false

/-- The encode is, or was, under way to an answer of TokTier. -/
def Phase.admits : Phase → Bool
  | .admitted | .serial | .accelerated | .failed => true
  | _ => false

structure Encode where
  addSpecialTokens : Bool
  phase : Phase
  /-- When it began, the supplied object was not the subject's tokenizer. -/
  drifted : Bool
  /-- When it began, an encode had been refused for drift. -/
  late : Bool

/-- A change that goes through the wrapper. -/
inductive Mutator
  | call
  | assignment
  | deletion
  deriving DecidableEq

structure Config where
  subject : Subject
  /-- The special tokens are a fixed prefix and suffix. -/
  templateOk : Bool
  /-- A pool was started. -/
  pooled : Bool

/-- The wrapper, the supplied object, and what the threads are at. -/
structure World where
  hf : Supplied
  /-- `_tok` is there. -/
  tok : Bool
  identity : Verdict
  stale : Bool
  fingerprint : Option Fingerprint
  lock : Option ℕ
  encodes : ℕ → Option Encode
  /-- The forwarded change that a thread has made and not yet marked. -/
  changing : ℕ → Option Mutator
  /-- The supplied object as it was when it was last found equivalent. -/
  compared : Supplied
  /-- An encode was refused for drift. -/
  refused : Bool

/-- How an admitted encode goes on. -/
inductive Route
  /-- The template is no fixed one. -/
  | template
  /-- An asynchronous encode that the pool does not serve starts over. -/
  | again
  | pool
  | poolFailed
  | serial
  deriving DecidableEq

inductive Act
  /-- An encode begins; `plain` when it is of one text, without other arguments. -/
  | begin (e : ℕ) (plain addSpecialTokens : Bool)
  | look (e : ℕ)
  | acquire (e : ℕ)
  | readFlag (e : ℕ)
  | readFingerprint (e : ℕ)
  | compare (e : ℕ)
  | clearFlag (e : ℕ)
  | settle (e : ℕ)
  | serve (e : ℕ) (route : Route)
  /-- Somebody changes the retained object. -/
  | direct (o : Supplied)
  /-- A thread changes it through the wrapper. -/
  | forward (thread : ℕ) (mutator : Mutator) (o : Supplied)
  /-- The forwarded change has returned or, when `raised`, ended in an exception. -/
  | mark (thread : ℕ) (raised : Bool)

/-- The supplied object is the subject's tokenizer: it does not split special tokens, and its core
sections are those of the face, as it is or as the live library writes it. -/
def agrees (subject : Subject) (o : Supplied) : Bool :=
  !splitsSpecialTokens o &&
    match o.backend, subject.face with
    | some backend, some (.ok face) =>
      let live := coreSections backend.document
      differing live (coreSections face) = [] ||
        differing live (coreSections (subject.canonical.getD face)) = []
    | _, _ => false

namespace World

variable (cfg : Config) (w : World)

/-- The encode, when it is in the given phase. -/
def encodeAt (e : ℕ) (phase : Phase) : Option Encode :=
  (w.encodes e).filter fun k => k.phase = phase

def setPhase (e : ℕ) (phase : Phase) : World :=
  { w with
    encodes := Function.update w.encodes e ((w.encodes e).map fun k => { k with phase := phase }) }

/-- The wrapper after its construction. The object may have changed between the comparison and
the fingerprint. -/
def start (o o' : Supplied) : World :=
  let verdict := checkCoreIdentity cfg.subject o
  { hf := o'
    tok := verdict.status = .equivalent
    identity := verdict
    stale := false
    fingerprint := if verdict.status = .equivalent then liveFingerprint o' else none
    lock := none
    encodes := fun _ => none
    changing := fun _ => none
    compared := o
    refused := false }

/-- An encode begins. What is not one plain text goes to the supplied object, and so does
everything once `_tok` is gone. -/
def begin (e : ℕ) (plain addSpecialTokens : Bool) : World :=
  let k : Encode :=
    { addSpecialTokens
      phase := if w.tok && plain then .begun else .delegated
      drifted := !agrees cfg.subject w.hf
      late := w.refused }
  { w with encodes := Function.update w.encodes e (some k) }

/-- The supplied object is no longer the tokenizer that TokTier loaded. -/
def latchPassthrough (verdict : Verdict) : World :=
  { w with identity := verdict, tok := false, refused := true }

/-- Where an admitted encode gets to on a route. -/
def afterRoute (k : Encode) (route : Route) : Option Phase :=
  match k.phase, route with
  | .admitted, .template =>
    if k.addSpecialTokens && !cfg.templateOk then some .delegated else none
  | .admitted, .again => some .begun
  | .admitted, .pool => if cfg.pooled then some .accelerated else none
  | .admitted, .poolFailed =>
    if cfg.pooled then some (if w.tok then .serial else .delegated) else none
  | .admitted, .serial | .serial, .serial =>
    -- the subject is called under the lock, and may be gone by now
    if w.lock.isNone then some (if w.tok then .accelerated else .failed) else none
  | _, _ => none

/-- One statement of `_admitted`, or of what comes before and after it. -/
def step : Act → Option World
  | .begin e plain addSpecialTokens =>
    if (w.encodes e).isNone then some (w.begin cfg e plain addSpecialTokens) else none
  | .look e =>
    (w.encodeAt e .begun).map fun _ => w.setPhase e (if w.tok then .waiting else .delegated)
  | .acquire e =>
    if w.lock.isNone then
      (w.encodeAt e .waiting).map fun _ =>
        if w.tok then { w.setPhase e .locked with lock := some e } else w.setPhase e .delegated
    else none
  | .readFlag e =>
    (w.encodeAt e .locked).map fun _ =>
      w.setPhase e (if w.stale then .comparing else .unmarked)
  | .readFingerprint e =>
    (w.encodeAt e .unmarked).map fun _ =>
      if liveFingerprint w.hf = w.fingerprint then
        { w.setPhase e .admitted with lock := none }
      else w.setPhase e .comparing
  | .compare e =>
    (w.encodeAt e .comparing).map fun _ =>
      let verdict := checkCoreIdentity cfg.subject w.hf
      { w.setPhase e (.compared verdict) with
        compared := if verdict.status = .equivalent then w.hf else w.compared }
  | .clearFlag e =>
    (w.encodes e).bind fun k => match k.phase with
      | .compared verdict => some { w.setPhase e (.cleared verdict) with stale := false }
      | _ => none
  | .settle e =>
    (w.encodes e).bind fun k => match k.phase with
      | .cleared verdict =>
        if verdict.status = .equivalent then
          some { w.setPhase e .admitted with
            fingerprint := liveFingerprint w.hf, lock := none }
        else some { (w.setPhase e .delegated).latchPassthrough verdict with lock := none }
      | _ => none
  | .serve e route =>
    (w.encodes e).bind fun k => (w.afterRoute cfg k route).map (w.setPhase e)
  | .direct o =>
    -- the model is replaced through the wrapper only
    if o.backend.map Backend.model = w.hf.backend.map Backend.model then some { w with hf := o }
    else none
  | .forward thread mutator o =>
    if (w.changing thread).all (· = mutator) then
      some { w with hf := o, changing := Function.update w.changing thread (some mutator) }
    else none
  | .mark thread raised =>
    (w.changing thread).bind fun mutator =>
      let w' := { w with changing := Function.update w.changing thread none }
      -- only a call puts up the flag in a `finally` clause
      some (if raised && mutator ≠ .call then w' else { w' with stale := true })

end World

/-- The states that allowed acts reach. -/
inductive Reach (cfg : Config) (ok : World → Act → Prop) : World → Prop
  | start (o o' : Supplied) : Reach cfg ok (World.start cfg o o')
  | step {w w' : World} (a : Act) (h : Reach cfg ok w) (hok : ok w a)
      (hs : w.step cfg a = some w') : Reach cfg ok w'

end Toktier.Sglang
