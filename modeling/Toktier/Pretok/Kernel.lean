import Mathlib.Data.Int.Order.Basic
import Mathlib.Logic.Function.Basic

/-!
# The parallel pre-tokenizer

The splitter kernels decide for every character on its own whether a piece starts
there: `k_classify` cuts the text into runs of one class, `k_runinfo` collects the
start of each run and its first other and last CR or LF character, and `k_rules`
evaluates the rules of a rule set. A buffer is a function of the index; what the
kernels leave undefined is a parameter. Runs never cross a mark of the `dstart`
channel, and `dso` holds the last such mark at or before each character.

## Main definitions

* `kClassify`, `inclusiveSum`, `kRunInfo`: the passes before the rules.
* `rulesCl100k`, `rulesDeepSeek`: `k_rules` for the two rule sets.
* `kDsSeedN`, `kDsBMask`: the passes that find the segments of the second one.
* `kLagBMask`: the pass that finds the segments of the Laguna rule set.
-/
namespace Toktier.Pretok

/-- The classes of the GPT-style table: punctuation, letter, number and space. -/
inductive Cls where
  | P
  | L
  | N
  | S
  deriving DecidableEq, Repr

/-- The classes of the DeepSeek table. -/
inductive DsCls where
  | O
  | L
  | M
  | N
  | PS
  | WS
  | CRLF
  deriving DecidableEq, Repr

/-! ### Character tests -/

/-- Simple case folding: A-Z, and U+017F to s. -/
def fold (c : ℕ) : ℕ :=
  if c ≥ 65 ∧ c ≤ 90 then c + 32
  else if c = 0x17F then 0x73
  else c

/-- CR or LF. -/
def crlf (c : ℕ) : Bool := c = 10 || c = 13

def dsCjk (c : ℕ) : Bool :=
  (c ≥ 0x4E00 && c ≤ 0x9FA5) || (c ≥ 0x3040 && c ≤ 0x309F) || (c ≥ 0x30A0 && c ≤ 0x30FF)

/-- `[A-Za-z]` -/
def dsAlpha (c : ℕ) : Bool := (c ≥ 0x41 && c ≤ 0x5A) || (c ≥ 0x61 && c ≤ 0x7A)

/-- The ASCII punctuation that heads a letter segment. -/
def dsApunct (c : ℕ) : Bool :=
  (c ≥ 0x21 && c ≤ 0x2F) || (c ≥ 0x3A && c ≤ 0x40) || (c ≥ 0x5B && c ≤ 0x60) ||
    (c ≥ 0x7B && c ≤ 0x7E)

/-- The class by which runs are cut: marks join letters, CR and LF join white space. -/
def dsRc : DsCls → DsCls
  | .M => .L
  | .CRLF => .WS
  | c => c

/-! ### Runs -/

variable {γ : Type} [DecidableEq γ]

/-- `k_classify`: the class of a character and whether it heads a run. -/
def kClassify (rc : γ → γ) (cp : ℕ → ℕ) (tab : ℕ → γ) (dstart : ℕ → Bool) (i : ℕ) : γ × Bool :=
  let c := tab (cp i)
  (c, if i = 0 ∨ dstart i then true else rc (tab (cp (i - 1))) ≠ rc c)

/-- The inclusive prefix sum of the heads. -/
def inclusiveSum (f : ℕ → Bool) : ℕ → ℕ
  | 0 => (f 0).toNat
  | i + 1 => inclusiveSum f i + (f (i + 1)).toNat

/-- The inclusive prefix maximum. -/
def inclusiveMax (f : ℕ → ℕ) : ℕ → ℕ
  | 0 => f 0
  | i + 1 => max (inclusiveMax f i) (f (i + 1))

/-- The three tables with one entry for each run. -/
structure RunInfo where
  runStart : ℕ → ℕ
  /-- First character of a white run that is neither CR nor LF. -/
  fnc : ℕ → ℕ
  /-- Last CR or LF of a white run. -/
  lc : ℕ → ℤ

/-- The value of four bytes `0x7f`. -/
def fncInit : ℕ := 0x7f7f7f7f

/-- The tables before `k_runinfo`; the run starts are not initialised. -/
def RunInfo.init (runStart : ℕ → ℕ) : RunInfo where
  runStart := runStart
  fnc := fun _ => fncInit
  lc := fun _ => -1

/-- Thread `i` of `k_runinfo`. -/
def runInfoThread (wsf : γ → Bool) (cp : ℕ → ℕ) (cls : ℕ → γ) (head : ℕ → Bool) (rid : ℕ → ℕ)
    (t : RunInfo) (i : ℕ) : RunInfo :=
  let r := rid i - 1
  let t := if head i then { t with runStart := Function.update t.runStart r i } else t
  if wsf (cls i) then
    if crlf (cp i) then { t with lc := Function.update t.lc r (max (t.lc r) i) }
    else { t with fnc := Function.update t.fnc r (min (t.fnc r) i) }
  else t

/-- `k_runinfo`, its threads taken in the order `order`. -/
def kRunInfo (wsf : γ → Bool) (cp : ℕ → ℕ) (cls : ℕ → γ) (head : ℕ → Bool) (rid : ℕ → ℕ)
    (order : List ℕ) (t : RunInfo) : RunInfo :=
  order.foldl (runInfoThread wsf cp cls head rid) t

/-! ### Rules -/

/-- What a thread of `k_rules` reads. -/
structure Buffers (γ : Type) where
  cp : ℕ → ℕ
  cls : ℕ → γ
  head : ℕ → Bool
  rid : ℕ → ℕ
  info : RunInfo
  dso : ℕ → ℕ
  dstart : ℕ → Bool
  /-- Start of the run of ASCII letters, for the DeepSeek rules. -/
  ars : ℕ → ℕ
  R : ℕ
  n : ℕ

/-- The rule for white space: the start of `\s*[\r\n]+`, the start of what follows it,
and a standalone last space. -/
def spaceRule (b : Buffers γ) (punct : γ) (i : ℕ) : Bool :=
  let r := b.rid i - 1
  let rs := b.info.runStart r
  let re := if r + 1 < b.R then b.info.runStart (r + 1) else b.n
  let prevP := rs - b.dso i > 0 ∧ b.cls (rs - 1) = punct
  let f := if b.info.fnc r > re then re else b.info.fnc r
  -- the punctuation before the run has taken its leading newlines
  let rsEff := if prevP then f else rs
  let l := b.info.lc r
  let hasNl := l ≥ rsEff
  let t0 := if hasNl then (l + 1).toNat else rsEff
  let m := re - t0
  let docEnd := re ≥ b.n ∨ b.dstart re
  (hasNl ∧ i = rsEff) ∨ (m > 0 ∧ i = t0) ∨ (m ≥ 2 ∧ ¬ docEnd ∧ i = re - 1)

/-- `k_rules<RS_CL100K>` -/
def rulesCl100k (b : Buffers Cls) (dmax i : ℕ) : Bool :=
  if i = 0 ∨ b.dstart i then true
  else
    let d := b.dso i
    match b.cls i with
    | .N => (i - b.info.runStart (b.rid i - 1)) % dmax = 0
    | .L =>
      if b.head i then
        let pc := b.cls (i - 1)
        let crlf1 := crlf (b.cp (i - 1))
        let plen1 := i - d < 2 ∨ b.cls (i - 2) ≠ .P
        let arr := i - d < 2 ∨ b.cp (i - 2) ≠ 32
        let merged := (pc = .S ∧ ¬ crlf1) ∨ (pc = .P ∧ plen1 ∧ arr)
        ¬ merged
      else
        let st := i - d ≥ 2 ∧ b.cp (i - 2) = 39 ∧
          let plen1 := i - d < 3 ∨ b.cls (i - 3) ≠ .P
          let arr := i - d < 3 ∨ b.cp (i - 3) ≠ 32
          let f1 := fold (b.cp (i - 1))
          plen1 ∧ arr ∧ (f1 = 0x73 ∨ f1 = 0x74 ∨ f1 = 0x6D ∨ f1 = 0x64)
        st ∨ (i - d ≥ 3 ∧ b.cp (i - 3) = 39 ∧ b.cls (i - 2) = .L ∧
          let plen1 := i - d < 4 ∨ b.cls (i - 4) ≠ .P
          let arr := i - d < 4 ∨ b.cp (i - 4) ≠ 32
          let f1 := fold (b.cp (i - 2))
          let f2 := fold (b.cp (i - 1))
          plen1 ∧ arr ∧ ((f1 = 0x72 ∧ f2 = 0x65) ∨ (f1 = 0x76 ∧ f2 = 0x65) ∨
            (f1 = 0x6C ∧ f2 = 0x6C)))
    | .P => b.head i ∧ b.cp (i - 1) ≠ 32
    | .S => spaceRule b .P i

/-- `ds_a1_trig`: `h` follows a single ASCII punctuation character that takes the letters
from `h` on. -/
def dsA1Trig (h : ℕ) (cp : ℕ → ℕ) (cls : ℕ → DsCls) (B : ℕ → Bool) : Bool :=
  if h < 1 ∨ B h ∨ ¬ dsAlpha (cp h) then false
  else if cls (h - 1) ≠ .PS ∨ ¬ dsApunct (cp (h - 1)) then false
  else
    let len1 := h - 1 = 0 ∨ B (h - 1) ∨ cls (h - 2) ≠ .PS
    if ¬ len1 then false
    else
      let smerge := h - 1 > 0 ∧ ¬ B (h - 1) ∧ cp (h - 2) = 32
      ¬ smerge

/-- `k_rules<RS_DEEPSEEK>` -/
def rulesDeepSeek (b : Buffers DsCls) (i : ℕ) : Bool :=
  if i = 0 ∨ b.dstart i then true
  else
    let c := b.cls i
    if c = .L ∨ c = .M then
      if b.head i then
        let pc := b.cls (i - 1)
        let merged := pc = .WS ∨ pc = .O ∨ pc = .N
        ¬ merged ∧ ¬ dsA1Trig i b.cp b.cls b.dstart
      else if ¬ dsAlpha (b.cp i) ∧ dsAlpha (b.cp (i - 1)) then
        dsA1Trig (b.ars (i - 1)) b.cp b.cls b.dstart
      else false
    else if c = .PS then b.head i ∧ b.cp (i - 1) ≠ 32
    else if c = .O then
      b.head i ∨ (i + 1 < b.n ∧ ¬ b.dstart (i + 1) ∧ (b.cls (i + 1) = .L ∨ b.cls (i + 1) = .M))
    else if c = .WS ∨ c = .CRLF then spaceRule b .PS i
    else false

/-! ### The pipeline -/

/-- The buffers that the passes before the rules fill for `n` characters. -/
def buffers (rc : γ → γ) (wsf : γ → Bool) (tab : ℕ → γ) (cp : ℕ → ℕ) (n : ℕ)
    (dstart : ℕ → Bool) (dso ars : ℕ → ℕ) (mem : ℕ → ℕ) (order : List ℕ) : Buffers γ :=
  let cls := fun i => (kClassify rc cp tab dstart i).1
  let head := fun i => (kClassify rc cp tab dstart i).2
  let rid := inclusiveSum head
  { cp, cls, head, rid, dso, dstart, ars, n
    info := kRunInfo wsf cp cls head rid order (.init mem)
    R := rid (n - 1) }

/-- The buffers of the GPT-style rule set. -/
def cl100kBuffers (tab : ℕ → Cls) (cp : ℕ → ℕ) (n : ℕ) (dstart : ℕ → Bool) (dso mem : ℕ → ℕ)
    (order : List ℕ) : Buffers Cls :=
  buffers id (· = .S) tab cp n dstart dso (fun _ => 0) mem order

/-- `pretok_starts`: the starts of one document. Without a `dstart` and a `dso` channel
the look-back base is the start of the text. -/
def pretokStarts (tab : ℕ → Cls) (dmax : ℕ) (cp : ℕ → ℕ) (n : ℕ) (mem : ℕ → ℕ)
    (order : List ℕ) (i : ℕ) : Bool :=
  rulesCl100k (cl100kBuffers tab cp n (fun _ => false) (fun _ => 0) mem order) dmax i

/-! ### DeepSeek segments -/

/-- `k_dso_seed` -/
def kDsoSeed (dstart : ℕ → Bool) (i : ℕ) : ℕ := if dstart i then i else 0

/-- `k_ds_seed_n`: the seeds of the digit runs. -/
def kDsSeedN (cp : ℕ → ℕ) (tab : ℕ → DsCls) (doc : ℕ → Bool) (i : ℕ) : ℕ :=
  if tab (cp i) ≠ .N then i
  else if i = 0 ∨ doc i ∨ tab (cp (i - 1)) ≠ .N then i else 0

/-- `k_ds_bmask`: whether a segment starts at `i`, and the seed of the letter runs. -/
def kDsBMask (cp : ℕ → ℕ) (tab : ℕ → DsCls) (doc : ℕ → Bool) (nrs : ℕ → ℕ) (dmax i : ℕ) :
    Bool × ℕ :=
  let c := cp i
  let p := cp (i - 1)
  let nm := tab c = .N
  let pn := i > 0 ∧ tab p = .N
  let ck := dsCjk c
  let pk := i > 0 ∧ dsCjk p
  let b : Bool := i = 0 ∨ doc i ∨ (nm ∧ (i - nrs i) % dmax = 0) ∨ (¬ nm ∧ pn) ∨ (ck ∧ ¬ pk) ∨
    (¬ ck ∧ pk)
  (b, if ¬ dsAlpha c then i else if i = 0 ∨ b ∨ ¬ dsAlpha p then i else 0)

/-- `ds_prepass`, the segment starts: documents, digit groups and the ends of CJK runs. -/
def dsB (tab : ℕ → DsCls) (dmax : ℕ) (cp : ℕ → ℕ) (doc : ℕ → Bool) (i : ℕ) : Bool :=
  (kDsBMask cp tab doc (inclusiveMax (kDsSeedN cp tab doc)) dmax i).1

/-- `ds_prepass`, the starts of the runs of ASCII letters. -/
def dsArs (tab : ℕ → DsCls) (dmax : ℕ) (cp : ℕ → ℕ) (doc : ℕ → Bool) : ℕ → ℕ :=
  inclusiveMax fun i => (kDsBMask cp tab doc (inclusiveMax (kDsSeedN cp tab doc)) dmax i).2

/-- The buffers of the DeepSeek rule set. -/
def deepSeekBuffers (tab : ℕ → DsCls) (dmax : ℕ) (cp : ℕ → ℕ) (n : ℕ) (doc : ℕ → Bool)
    (mem : ℕ → ℕ) (order : List ℕ) : Buffers DsCls :=
  let B := dsB tab dmax cp doc
  buffers dsRc (fun c => c = .WS ∨ c = .CRLF) tab cp n B (inclusiveMax (kDsoSeed B))
    (dsArs tab dmax cp doc) mem order

/-- `pretok_starts_ds`: the starts of one document, which has no further marks. -/
def pretokStartsDs (tab : ℕ → DsCls) (dmax : ℕ) (cp : ℕ → ℕ) (n : ℕ) (mem : ℕ → ℕ)
    (order : List ℕ) (i : ℕ) : Bool :=
  rulesDeepSeek (deepSeekBuffers tab dmax cp n (fun _ => false) mem order) i

/-! ### Laguna segments -/

/-- `k_lag_bmask`: a document or a run of newlines starts at `i`. -/
def kLagBMask (cp : ℕ → ℕ) (doc : ℕ → Bool) (n i : ℕ) : Bool :=
  if i ≥ n then false
  else if i = 0 ∨ doc i then true
  else
    let c := cp i
    let p := cp (i - 1)
    if c = 10 then p ≠ 13 ∧ p ≠ 10
    else if c = 13 then i + 1 < n ∧ ¬ doc (i + 1) ∧ cp (i + 1) = 10 ∧ p ≠ 10
    else false

/-- The buffers of the Laguna rule set: those of the GPT-style one, on the segments that
`lag_prepass` marks. -/
def lagunaBuffers (tab : ℕ → Cls) (cp : ℕ → ℕ) (n : ℕ) (doc : ℕ → Bool) (mem : ℕ → ℕ)
    (order : List ℕ) : Buffers Cls :=
  let B := kLagBMask cp doc n
  cl100kBuffers tab cp n B (inclusiveMax (kDsoSeed B)) mem order

/-- `pretok_starts_batched_laguna`; the documents of `doc`. -/
def pretokStartsLaguna (tab : ℕ → Cls) (dmax : ℕ) (cp : ℕ → ℕ) (n : ℕ) (doc : ℕ → Bool)
    (mem : ℕ → ℕ) (order : List ℕ) (i : ℕ) : Bool :=
  rulesCl100k (lagunaBuffers tab cp n doc mem order) dmax i

end Toktier.Pretok
