import Toktier.Routing.Execute
import Mathlib.Algebra.BigOperators.Group.Finset.Basic

/-!
# A routed batch is its rows, one by one

The way of an input through the executor is a *passage*: where it starts, the moves it makes along
the chain, and where it stops. What a call adds to the ledger is what its passages add, whatever the
order in which the call makes them.

When a batch call of a backend answers exactly when each of its rows has an answer, and accelerated
backends answer what the reference backend answers or report a recoverable fault, then one text and a
batch both give the answers of the reference backend.

## Main results

* `wp_encode`, `wp_encodeBatch`: what one call returns, and the passages it adds.
* `encode_batch_rows`: a batch gives at every row what one call gives, and over all calls the
  ledger counts every input and every move once.
-/
namespace Toktier.Routing.Execute

open Toktier.Lib Toktier.Frontend Toktier.Chunked

/-- A move of one input along the chain, with the reason it is recorded under. -/
structure Move where
  code : String
  source : ℕ
  target : ℕ

/-- The way of one input. -/
structure Passage (τ : Type) where
  text : τ
  special : Bool
  start : ℕ
  moves : List Move
  stop : ℕ
  ids : List ℕ

/-- A public call that encodes. -/
inductive Call (τ : Type)
  | encode (text : τ) (special : Bool)
  | encodeBatch (texts : List τ) (special : Bool)

/-- The inputs of a call, in order. -/
def Call.inputs {τ : Type} : Call τ → List (τ × Bool)
  | .encode text special => [(text, special)]
  | .encodeBatch texts special => texts.map fun text => (text, special)

/-- What an event says about its move. -/
def FallbackEvent.names (event : FallbackEvent) : String × Option String × Option String :=
  (event.code, some event.backend, some event.target)

/-! ## The groups of a batch -/

/-- The positions of a list of groups, each with its starting index. -/
def placed (groups : List (ℕ × List ℕ)) : List (ℕ × ℕ) :=
  groups.flatMap fun group => group.2.map fun position => (group.1, position)

theorem placed_appendTo (start position : ℕ) (groups : List (ℕ × List ℕ)) :
    (placed (appendTo start position groups)).Perm (placed groups ++ [(start, position)]) := by
  induction groups with
  | nil => exact List.Perm.refl _
  | cons group groups ih =>
      obtain ⟨key, positions⟩ := group
      unfold appendTo
      split_ifs with hkey
      · subst hkey
        simp only [placed, List.flatMap_cons, List.map_append, List.map_cons, List.map_nil,
          List.append_assoc]
        exact List.perm_append_comm.append_left _
      · simp only [placed, List.flatMap_cons, List.append_assoc]
        exact ih.append_left _

/-- Every position is in one group, the one of its starting index. -/
theorem placed_groupStarts (groups : List (ℕ × List ℕ)) (position : ℕ) (starts : List ℕ) :
    (placed (groupStarts groups position starts)).Perm (placed groups ++ starts.zipIdx position) := by
  induction starts generalizing groups position with
  | nil =>
      rw [groupStarts, List.zipIdx_nil, List.append_nil]
  | cons start starts ih =>
      rw [groupStarts, List.zipIdx_cons, ← List.singleton_append, ← List.append_assoc]
      exact (ih _ _).trans ((placed_appendTo start position groups).append_right _)

theorem mem_appendTo {start position : ℕ} {groups : List (ℕ × List ℕ)} {group : ℕ × List ℕ}
    (h : group ∈ appendTo start position groups) :
    group.1 = start ∨ ∃ group' ∈ groups, group'.1 = group.1 := by
  induction groups with
  | nil =>
      obtain rfl := List.mem_singleton.mp h
      exact .inl rfl
  | cons first groups ih =>
      unfold appendTo at h
      split_ifs at h with hkey <;> rcases List.mem_cons.mp h with rfl | hmem
      · exact .inl hkey
      · exact .inr ⟨group, List.mem_cons_of_mem _ hmem, rfl⟩
      · exact .inr ⟨_, List.mem_cons_self, rfl⟩
      · rcases ih hmem with hstart | ⟨group', hgroup', heq⟩
        · exact .inl hstart
        · exact .inr ⟨group', List.mem_cons_of_mem _ hgroup', heq⟩

/-- The index of a group is the starting index of an input. -/
theorem mem_groupStarts {groups : List (ℕ × List ℕ)} {position : ℕ} {starts : List ℕ}
    {group : ℕ × List ℕ} (h : group ∈ groupStarts groups position starts) :
    group.1 ∈ starts ∨ ∃ group' ∈ groups, group'.1 = group.1 := by
  induction starts generalizing groups position with
  | nil => exact .inr ⟨group, h, rfl⟩
  | cons start starts ih =>
      rcases ih h with hmem | ⟨group', hgroup', heq⟩
      · exact .inl (List.mem_cons_of_mem _ hmem)
      · rcases mem_appendTo hgroup' with hstart | ⟨group'', hgroup'', heq'⟩
        · exact .inl (List.mem_cons.mpr (.inl (heq.symm.trans hstart)))
        · exact .inr ⟨group'', hgroup'', heq'.trans heq⟩

@[simp] theorem length_fill (output : List (Option (List ℕ))) (rows : List (ℕ × List ℕ)) :
    (fill output rows).length = output.length := by
  induction rows generalizing output with
  | nil => rfl
  | cons row rows ih => rw [fill, ih, List.length_set]

/-- What stands in a filled output was put there, or was there before. -/
theorem of_getElem?_fill {output : List (Option (List ℕ))} {rows : List (ℕ × List ℕ)} {position : ℕ}
    {row : List ℕ} (h : (fill output rows)[position]? = some (some row)) :
    (position, row) ∈ rows ∨ output[position]? = some (some row) := by
  induction rows generalizing output with
  | nil => exact .inr h
  | cons first rows ih =>
      rcases ih h with hmem | hget
      · exact .inl (List.mem_cons_of_mem _ hmem)
      · by_cases hposition : first.1 = position
        · subst hposition
          have hlt : first.1 < output.length := by
            have := (List.getElem?_eq_some_iff.mp hget).1
            rwa [List.length_set] at this
          rw [List.getElem?_set_self hlt] at hget
          exact .inl (List.mem_cons.mpr (.inl (Prod.ext rfl (Option.some.inj (Option.some.inj hget)).symm)))
        · rw [List.getElem?_set_ne hposition] at hget
          exact .inr hget

/-- A position that has its row. -/
def Filled (output : List (Option (List ℕ))) (position : ℕ) : Prop :=
  ∃ row, output[position]? = some (some row)

theorem Filled.fill {output : List (Option (List ℕ))} {position : ℕ} (h : Filled output position)
    (rows : List (ℕ × List ℕ)) : Filled (fill output rows) position := by
  induction rows generalizing output with
  | nil => exact h
  | cons first rows ih =>
      refine ih ?_
      obtain ⟨row, hrow⟩ := h
      by_cases hposition : first.1 = position
      · subst hposition
        exact ⟨first.2, List.getElem?_set_self (List.getElem?_eq_some_iff.mp hrow).1⟩
      · exact ⟨row, (List.getElem?_set_ne hposition).trans hrow⟩

/-- Every position of the rows is filled. -/
theorem filled_fill {output : List (Option (List ℕ))} {rows : List (ℕ × List ℕ)} {row : ℕ × List ℕ}
    (h : row ∈ rows) (hlt : row.1 < output.length) : Filled (fill output rows) row.1 := by
  induction rows generalizing output with
  | nil => exact absurd h List.not_mem_nil
  | cons first rows ih =>
      rcases List.mem_cons.mp h with rfl | hmem
      · exact Filled.fill ⟨row.2, List.getElem?_set_self hlt⟩ rows
      · exact ih hmem (by rwa [List.length_set])

/-- Items at all positions of a list, in order, give the list. -/
theorem map_eq_of_positions {α β : Type} {items : List α} {position : α → ℕ} {value : α → β} {l : List β}
    (hposition : items.map position = List.range l.length)
    (hvalue : ∀ item ∈ items, l[position item]? = some (value item)) : items.map value = l := by
  refine List.map_injective_iff.mpr (Option.some_injective β) ?_
  calc (items.map value).map some = items.map fun item => l[position item]? := by
        rw [List.map_map]
        exact List.map_congr_left fun item hitem => (hvalue item hitem).symm
    _ = (List.range l.length).map fun i => l[i]? := by
        rw [← hposition, List.map_map]
        rfl
    _ = l.map some := by
        refine List.ext_getElem? fun i => ?_
        rw [List.getElem?_map, List.getElem?_map]
        rcases Nat.lt_or_ge i l.length with hi | hi
        · rw [List.getElem?_range hi, List.getElem?_eq_getElem hi, Option.map_some, Option.map_some,
            List.getElem?_eq_getElem hi]
        · rw [List.getElem?_eq_none (by rwa [List.length_range]), List.getElem?_eq_none hi]
          rfl

theorem forall₂_filterMap {α β : Type} {f : α → Option β} {l : List α}
    (h : ∀ a ∈ l, (f a).isSome = true) : List.Forall₂ (fun a b => f a = some b) l (l.filterMap f) := by
  induction l with
  | nil => exact .nil
  | cons a l ih =>
      obtain ⟨b, hb⟩ := Option.isSome_iff_exists.mp (h a List.mem_cons_self)
      rw [List.filterMap_cons_some hb]
      exact .cons hb (ih fun a ha => h a (List.mem_cons_of_mem _ ha))

theorem forall₂_comp {α β γ : Type} {R : α → β → Prop} {S : β → γ → Prop} {l : List α} {m : List β}
    {n : List γ} (h : List.Forall₂ R l m) (h' : List.Forall₂ S m n) :
    List.Forall₂ (fun a c => ∃ b, R a b ∧ S b c) l n := by
  induction h generalizing n with
  | nil =>
      cases h'
      exact .nil
  | @cons a b l m hab h ih =>
      obtain ⟨c, n, hbc, hrest, rfl⟩ := List.forall₂_cons_left_iff.mp h'
      exact .cons ⟨b, hab, hbc⟩ (ih hrest)

theorem mapM_id_map_some {α : Type} (rows : List α) : (rows.map some).mapM id = some rows := by
  induction rows with
  | nil => rfl
  | cons row rows ih =>
      rw [List.map_cons, List.mapM_cons, ih]
      rfl

namespace RoutedExecutor

variable {τ : Type} (x : RoutedExecutor τ)

/-- `backend` gives `ids` for the text. -/
def Answers (backend : String) (text : τ) (special : Bool) (ids : List ℕ) : Prop :=
  ∃ encoder, x.backends backend = some encoder ∧ encoder.encode text special = .ok ids

/-- `backend` reports a recoverable fault, for the text or for a batch that has it. -/
def Faults (backend : String) (text : τ) (special : Bool) (exc : BackendExecutionFault) : Prop :=
  ∃ encoder, x.backends backend = some encoder ∧
    (encoder.encode text special = .error (.fault exc) ∨
      ∃ texts, text ∈ texts ∧ encoder.encodeBatch texts special = .error (.fault exc))

/-- A batch call answers exactly when each row does, with the answers of the rows; an accelerated
backend answers as the reference backend or reports a fault. -/
structure Exact : Prop where
  rows : ∀ backend ∈ x.chain, ∀ encoder, x.backends backend = some encoder →
    ∀ texts special rows, encoder.encodeBatch texts special = .ok rows ↔
      List.Forall₂ (fun text ids => encoder.encode text special = .ok ids) texts rows
  encode_fault : ∀ backend ∈ x.chain, backend ≠ BACKEND_REFERENCE →
    ∀ encoder, x.backends backend = some encoder → ∀ text special failure,
      encoder.encode text special = .error failure → ∃ exc, failure = .fault exc
  batch_fault : ∀ backend ∈ x.chain, backend ≠ BACKEND_REFERENCE →
    ∀ encoder, x.backends backend = some encoder → ∀ texts special failure,
      encoder.encodeBatch texts special = .error failure → ∃ exc, failure = .fault exc
  answers : ∀ backend ∈ x.chain, backend ≠ BACKEND_REFERENCE → ∀ text special ids,
    x.Answers backend text special ids → x.Answers BACKEND_REFERENCE text special ids

/-- The text holds an added-token literal. -/
def HoldsLiteral (text : τ) : Prop := ∃ router, x.addedRouter = some router ∧ router.holdsLiteral text = true

/-- The moves of a text along the chain: a fault moves it to the next backend, a literal to the
reference backend. -/
inductive Hops (text : τ) (special : Bool) : ℕ → List Move → ℕ → Prop
  | stay (index : ℕ) : Hops text special index [] index
  | fault {index stop : ℕ} {backend : String} {exc : BackendExecutionFault} {moves : List Move}
      (hbackend : x.chain[index]? = some backend) (hfaults : x.Faults backend text special exc)
      (hlt : index < x.referenceIndex) (hrest : Hops text special (index + 1) moves stop) :
      Hops text special index (⟨faultCode exc, index, index + 1⟩ :: moves) stop
  | literal {index stop : ℕ} {moves : List Move} (hholds : x.HoldsLiteral text)
      (hlt : index < x.referenceIndex) (hrest : Hops text special x.referenceIndex moves stop) :
      Hops text special index (⟨R_INPUT_ADDED_TOKEN, index, x.referenceIndex⟩ :: moves) stop

/-- The first backend of the chain whose threshold the size of the text meets; the reference backend
for a text without a UTF-8 view. -/
def Starts (view : Option (List UInt8)) (start : ℕ) : Prop :=
  match view with
  | none => start = x.referenceIndex
  | some bytes =>
      (∃ threshold, x.thresholds[start]? = some threshold ∧ threshold ≤ bytes.length) ∧
        ∀ index < start, ∀ threshold, x.thresholds[index]? = some threshold → bytes.length < threshold

/-- The move that a size below the threshold of a GPU at the head of the chain is recorded as. -/
def belowMoves (view : Option (List UInt8)) (start : ℕ) : List Move :=
  if view.isSome ∧ x.chain.head? = some BACKEND_GPU ∧ 0 < start then
    [⟨R_INPUT_BELOW_GPU_THRESHOLD, 0, start⟩]
  else []

/-- A passage that the texts and the backends account for. -/
structure Valid (utf8View : τ → Option (List UInt8)) (p : Passage τ) : Prop where
  starts : x.Starts (utf8View p.text) p.start
  hops : ∃ moves, p.moves = x.belowMoves (utf8View p.text) p.start ++ moves ∧
    x.Hops p.text p.special p.start moves p.stop
  forward : ∀ move ∈ p.moves, move.source < move.target ∧ move.target ≤ p.stop
  start_le : p.start ≤ p.stop
  stop_le : p.stop ≤ x.referenceIndex
  answered : ∃ backend, x.chain[p.stop]? = some backend ∧ x.Answers backend p.text p.special p.ids

/-- The names of a move's backends. -/
def names (move : Move) : String × Option String × Option String :=
  (move.code, x.chain[move.source]?, x.chain[move.target]?)

/-- The ledger grew by these moves, and by one input for each of these stops. -/
structure Adds (s s' : Ledger) (moves : List Move) (stops : List ℕ) : Prop where
  counts : ∀ code, s'.counts code = s.counts code + moves.countP fun move => move.code = code
  executionCounts : ∀ backend, s'.executionCounts backend =
    s.executionCounts backend + stops.countP fun stop => x.chain[stop]? = some backend
  events : if x.diagnostics then
      (s'.events.map FallbackEvent.names).Perm (s.events.map FallbackEvent.names ++ moves.map x.names)
    else s'.events = s.events

variable {x}

/-! ## Facts about the chain -/

theorem chain_nodup (x : RoutedExecutor τ) : x.chain.Nodup := x.plan.nodup

theorem getElem?_referenceIndex (x : RoutedExecutor τ) :
    x.chain[x.referenceIndex]? = some BACKEND_REFERENCE := by
  rw [referenceIndex, ← List.getLast?_eq_getElem?]
  exact x.plan.getLast?_eq

/-- A place up to the last one has a backend, and the backend was constructed. -/
theorem exists_encoder {index : ℕ} (h : index ≤ x.referenceIndex) : ∃ backend encoder,
    x.chain[index]? = some backend ∧ backend ∈ x.chain ∧ x.backends backend = some encoder := by
  have hlt : index < x.chain.length := h.trans_lt x.referenceIndex_lt
  have hmem := List.getElem_mem hlt
  obtain ⟨encoder, hencoder⟩ := Option.isSome_iff_exists.mp (x.constructed _ hmem)
  exact ⟨_, encoder, List.getElem?_eq_getElem hlt, hmem, hencoder⟩

theorem wp_backendAt {index : ℕ} {Q : String → Ledger → Prop} {R : Failure → Ledger → Prop}
    {s : Ledger} (h : index ≤ x.referenceIndex)
    (hQ : ∀ backend, x.chain[index]? = some backend → Q backend s) : wp (x.backendAt index) Q R s := by
  obtain ⟨backend, encoder, hbackend, -, -⟩ := exists_encoder h
  rw [backendAt, hbackend]
  exact hQ backend hbackend

theorem Answers.functional {backend : String} {text : τ} {special : Bool} {ids ids' : List ℕ}
    (h : x.Answers backend text special ids) (h' : x.Answers backend text special ids') : ids = ids' := by
  obtain ⟨encoder, hencoder, hids⟩ := h
  obtain ⟨encoder', hencoder', hids'⟩ := h'
  obtain rfl := Option.some.inj (hencoder.symm.trans hencoder')
  exact Except.ok.inj (hids.symm.trans hids')

/-- What a backend of the chain answers, the reference backend answers. -/
theorem Exact.reference (hexact : x.Exact) {backend : String} (hmem : backend ∈ x.chain) {text : τ}
    {special : Bool} {ids : List ℕ} (h : x.Answers backend text special ids) :
    x.Answers BACKEND_REFERENCE text special ids := by
  by_cases hbackend : backend = BACKEND_REFERENCE
  · exact hbackend ▸ h
  · exact hexact.answers backend hmem hbackend text special ids h

/-! ## What the ledger gains -/

theorem Adds.refl (s : Ledger) : x.Adds s s [] [] where
  counts := fun _ => rfl
  executionCounts := fun _ => rfl
  events := by
    split_ifs
    · rw [List.map_nil, List.append_nil]
    · rfl

theorem Adds.trans {s s' s'' : Ledger} {moves moves' : List Move} {stops stops' : List ℕ}
    (h : x.Adds s s' moves stops) (h' : x.Adds s' s'' moves' stops') :
    x.Adds s s'' (moves ++ moves') (stops ++ stops') where
  counts := by
    intro code
    rw [h'.counts, h.counts, List.countP_append, Nat.add_assoc]
  executionCounts := by
    intro backend
    rw [h'.executionCounts, h.executionCounts, List.countP_append, Nat.add_assoc]
  events := by
    have hevents := h.events
    have hevents' := h'.events
    split_ifs at hevents hevents' ⊢
    · rw [List.map_append, ← List.append_assoc]
      exact hevents'.trans (hevents.append_right _)
    · rw [hevents', hevents]

/-- The order in which moves and stops are listed does not matter. -/
theorem Adds.perm {s s' : Ledger} {moves moves' : List Move} {stops stops' : List ℕ}
    (h : x.Adds s s' moves stops) (hmoves : moves.Perm moves') (hstops : stops.Perm stops') :
    x.Adds s s' moves' stops' where
  counts := by
    intro code
    rw [h.counts, hmoves.countP_eq]
  executionCounts := by
    intro backend
    rw [h.executionCounts, hstops.countP_eq]
  events := by
    have hevents := h.events
    split_ifs at hevents ⊢
    · exact hevents.trans ((hmoves.map _).append_left _)
    · exact hevents

/-- A recorded move. -/
theorem Adds.record {s : Ledger} {code backend target : String} {detail : List (String × Json)}
    {move : Move} (hcode : move.code = code) (hsource : x.chain[move.source]? = some backend)
    (htarget : x.chain[move.target]? = some target) :
    x.Adds s { s with
      counts := increment s.counts code
      events := if x.diagnostics then s.events ++ [⟨code, backend, target, detail⟩] else s.events }
      [move] [] where
  counts := by
    intro other
    subst hcode
    by_cases hother : move.code = other
    · subst hother
      simp [increment]
    · simp [increment, hother, Ne.symm hother]
  executionCounts := fun _ => rfl
  events := by
    split_ifs with hdiagnostics
    · rw [List.map_append]
      simp only [List.map_cons, List.map_nil, FallbackEvent.names, names, hcode, hsource, htarget]
      exact List.Perm.refl _
    · rfl

/-- A recorded result. -/
theorem Adds.execution {s : Ledger} {backend : String} {stop : ℕ} {last : Option LastExecution}
    (hstop : x.chain[stop]? = some backend) :
    x.Adds s { s with executionCounts := increment s.executionCounts backend, lastExecution := last }
      [] [stop] where
  counts := fun _ => rfl
  executionCounts := by
    intro other
    by_cases hother : backend = other
    · subst hother
      simp [increment, hstop]
    · simp [increment, hstop, hother, Ne.symm hother]
  events := by
    split_ifs
    · rw [List.map_nil, List.append_nil]
    · rfl

theorem wp_encoder {backend : String} {encoder : Encoder τ} {Q : Encoder τ → Ledger → Prop}
    {R : Failure → Ledger → Prop} {s : Ledger} (hencoder : x.backends backend = some encoder)
    (hQ : Q encoder s) : wp (x.encoder backend) Q R s := by
  rw [RoutedExecutor.encoder, hencoder]
  exact hQ

theorem wp_record {code backend target : String} {detail : List (String × Json)}
    {R : Failure → Ledger → Prop} (move : Move) (s : Ledger) (hcode : move.code = code)
    (hsource : x.chain[move.source]? = some backend) (htarget : x.chain[move.target]? = some target) :
    wp (x.record code backend target detail) (fun _ s' => x.Adds s s' [move] []) R s := by
  rw [record, wp_modify]
  exact Adds.record hcode hsource htarget

theorem wp_recordFault {exc : BackendExecutionFault} {backend target scope : String} {index : ℕ}
    {R : Failure → Ledger → Prop} (s : Ledger) (hbackend : x.chain[index]? = some backend)
    (htarget : x.chain[index + 1]? = some target) :
    wp (x.recordFault exc backend target scope)
      (fun _ s' => x.Adds s s' [⟨faultCode exc, index, index + 1⟩] []) R s := by
  rw [recordFault]
  exact wp_record _ s rfl hbackend htarget

theorem wp_recordExecution {backend : String} {inputBytes : Option ℕ} {selectedStart stop : ℕ}
    {R : Failure → Ledger → Prop} (s : Ledger) (hstart : selectedStart ≤ x.referenceIndex)
    (hstop : x.chain[stop]? = some backend) :
    wp (x.recordExecution backend inputBytes selectedStart) (fun _ s' => x.Adds s s' [] [stop]) R s := by
  rw [recordExecution, wp_bind]
  refine wp_backendAt hstart fun start _ => ?_
  rw [wp_modify]
  exact Adds.execution hstop

/-! ## The moves of one text -/

theorem Hops.le {text : τ} {special : Bool} {index stop : ℕ} {moves : List Move}
    (h : x.Hops text special index moves stop) : index ≤ stop := by
  induction h with
  | stay index => exact le_rfl
  | fault hbackend hfaults hlt hrest ih => omega
  | literal hholds hlt hrest ih => omega

theorem Hops.stop_le {text : τ} {special : Bool} {index stop : ℕ} {moves : List Move}
    (h : x.Hops text special index moves stop) (hindex : index ≤ x.referenceIndex) :
    stop ≤ x.referenceIndex := by
  induction h with
  | stay index => exact hindex
  | fault hbackend hfaults hlt hrest ih => exact ih hlt
  | literal hholds hlt hrest ih => exact ih le_rfl

/-- Every move goes forward, and not past the place where the text stops. -/
theorem Hops.forward {text : τ} {special : Bool} {index stop : ℕ} {moves : List Move}
    (h : x.Hops text special index moves stop) :
    ∀ move ∈ moves, move.source < move.target ∧ move.target ≤ stop := by
  induction h with
  | stay index => exact fun move hmove => absurd hmove List.not_mem_nil
  | @fault index stop backend exc moves hbackend hfaults hlt hrest ih =>
      intro move hmove
      rcases List.mem_cons.mp hmove with rfl | hmove
      · exact ⟨Nat.lt_succ_self index, hrest.le⟩
      · exact ih move hmove
  | literal hholds hlt hrest ih =>
      intro move hmove
      rcases List.mem_cons.mp hmove with rfl | hmove
      · exact ⟨hlt, hrest.le⟩
      · exact ih move hmove

/-- What one text reached from `index`: the answer of the reference backend, and what its moves and
its stop add to the ledger. -/
def Reached (x : RoutedExecutor τ) (text : τ) (special : Bool) (index : ℕ) (s : Ledger)
    (ids : List ℕ) (s' : Ledger) : Prop :=
  ∃ moves stop, x.Hops text special index moves stop ∧
    (∃ backend, x.chain[stop]? = some backend ∧ x.Answers backend text special ids) ∧
    x.Adds s s' moves [stop]

/-- A backend of the chain answers the text, and the result is recorded. -/
theorem Reached.here {text : τ} {special : Bool} {index : ℕ} {s s' : Ledger} {ids : List ℕ}
    {backend : String} (hbackend : x.chain[index]? = some backend)
    (hids : x.Answers backend text special ids) (hadds : x.Adds s s' [] [index]) :
    x.Reached text special index s ids s' :=
  ⟨[], index, .stay index, ⟨backend, hbackend, hids⟩, hadds⟩

/-- The text goes on from where a move put it. -/
theorem Reached.after {text : τ} {special : Bool} {index next : ℕ} {s s' s'' : Ledger} {ids : List ℕ}
    {move : Move} (hadds : x.Adds s s' [move] []) (h : x.Reached text special next s' ids s'')
    (hmove : ∀ moves stop, x.Hops text special next moves stop →
      x.Hops text special index (move :: moves) stop) : x.Reached text special index s ids s'' := by
  obtain ⟨moves, stop, hhops, hanswered, hrest⟩ := h
  exact ⟨move :: moves, stop, hmove moves stop hhops, hanswered, hadds.trans hrest⟩

/-- No failure of an encoding hides an answer of the reference backend. -/
theorem not_answers_of_error {text : τ} {special : Bool} {backend : String} {encoder : Encoder τ}
    {failure : Failure} (hencoder : x.backends backend = some encoder)
    (herror : encoder.encode text special = .error failure) (ids : List ℕ) :
    ¬x.Answers backend text special ids := by
  rintro ⟨encoder', hencoder', hids⟩
  obtain rfl := Option.some.inj (hencoder.symm.trans hencoder')
  cases herror.symm.trans hids

/-- One text, from any place of the chain: the chain is walked to its end at most, and only the
reference backend can fail. -/
theorem wp_encodeFrom (hexact : x.Exact) {text : τ} {special holdsLiteral : Bool}
    {inputBytes : Option ℕ} {selectedStart : ℕ} (hstart : selectedStart ≤ x.referenceIndex)
    (hholds : holdsLiteral = true → x.HoldsLiteral text) (index : ℕ)
    (hindex : index ≤ x.referenceIndex) (s : Ledger) :
    wp (x.encodeFrom index text special holdsLiteral inputBytes selectedStart)
      (x.Reached text special index s)
      (fun _ _ => ∀ ids, ¬x.Answers BACKEND_REFERENCE text special ids) s := by
  induction hn : x.referenceIndex - index using Nat.strong_induction_on generalizing index s with
  | _ n ih =>
    obtain ⟨backend, encoder, hbackend, hmem, hencoder⟩ := exists_encoder hindex
    rw [encodeFrom]
    split
    · next hnone => exact absurd (hnone.symm.trans hbackend) (Option.some_ne_none _).symm
    next found hfound =>
    obtain rfl := Option.some.inj (hbackend.symm.trans hfound)
    split_ifs with hreference hliteral
    · -- the reference backend: whatever it raises is the result
      subst hreference
      rw [wp_bind]
      refine wp_encoder hencoder ?_
      rw [wp_bind, wp_fromExcept]
      refine ⟨fun ids hids => ?_, fun failure hfailure => not_answers_of_error hencoder hfailure⟩
      rw [wp_bind]
      refine wp_mono (wp_recordExecution _ hstart hbackend) (fun _ s' hadds => ?_) fun _ _ h => h
      exact Reached.here hbackend ⟨_, hencoder, hids⟩ hadds
    · -- a literal: straight to the reference backend
      have hlt := x.lt_referenceIndex hbackend hreference
      rw [wp_bind]
      refine wp_backendAt le_rfl fun target htarget => ?_
      rw [wp_bind]
      refine wp_mono (wp_record ⟨R_INPUT_ADDED_TOKEN, index, x.referenceIndex⟩ s rfl hbackend
        htarget) (fun _ s' hadds => ?_) fun _ _ h => h
      refine wp_mono (ih _ (by omega) x.referenceIndex le_rfl s' rfl) (fun ids s'' hrest => ?_)
        fun _ _ h => h
      exact hrest.after hadds fun moves stop hhops => .literal (hholds hliteral.2) hlt hhops
    · have hlt := x.lt_referenceIndex hbackend hreference
      rw [wp_bind]
      refine wp_encoder hencoder ?_
      cases hencode : encoder.encode text special with
      | ok ids =>
          rw [wp_bind]
          refine wp_mono (wp_recordExecution _ hstart hbackend) (fun _ s' hadds => ?_) fun _ _ h => h
          exact Reached.here hbackend ⟨_, hencoder, hencode⟩ hadds
      | error failure =>
          obtain ⟨exc, rfl⟩ := hexact.encode_fault _ hmem hreference _ hencoder _ _ _ hencode
          rw [wp_bind]
          refine wp_backendAt hlt fun target htarget => ?_
          rw [wp_bind]
          refine wp_mono (wp_recordFault _ hbackend htarget) (fun _ s' hadds => ?_) fun _ _ h => h
          refine wp_mono (ih _ (by omega) (index + 1) hlt s' rfl) (fun ids s'' hrest => ?_)
            fun _ _ h => h
          exact hrest.after hadds fun moves stop hhops =>
            .fault hbackend ⟨_, hencoder, .inl hencode⟩ hlt hhops

/-! ## The moves of a group -/

/-- A loop whose rounds all add the same. -/
theorem wp_forM_adds {β : Type} {f : β → Request Unit} {moves : List Move} {stops : List ℕ}
    {R : Failure → Ledger → Prop} (xs : List β) (s : Ledger)
    (hf : ∀ s, ∀ b ∈ xs, wp (f b) (fun _ s' => x.Adds s s' moves stops) R s) :
    wp (xs.forM f) (fun _ s' => x.Adds s s' (xs.flatMap fun _ => moves) (xs.flatMap fun _ => stops)) R
      s := by
  induction xs generalizing s with
  | nil => exact Adds.refl s
  | cons b xs ih =>
      rw [show (b :: xs).forM f = (f b >>= fun _ => xs.forM f) from rfl, wp_bind]
      refine wp_mono (hf s b List.mem_cons_self) (fun _ s' hb => ?_) fun _ _ h => h
      refine wp_mono (ih s' fun s b hb => hf s b (List.mem_cons_of_mem _ hb)) (fun _ s'' hxs => ?_)
        fun _ _ h => h
      exact hb.trans hxs

/-- A batch that the reference backend does not answer has a text that it does not answer. -/
theorem exists_not_answers {backend : String} {special : Bool} {texts : List τ}
    (h : ∀ rows, ¬List.Forall₂ (fun text ids => x.Answers backend text special ids) texts rows) :
    ∃ text ∈ texts, ∀ ids, ¬x.Answers backend text special ids := by
  by_contra hall
  push Not at hall
  choose! answer hanswer using hall
  refine h (texts.map answer) ?_
  rw [List.forall₂_map_right_iff, List.forall₂_same]
  exact hanswer

/-- What a group reached: its texts made the same moves, and its rows are their answers. -/
def GroupReached (x : RoutedExecutor τ) (texts : List τ) (special : Bool) (index : ℕ) (s : Ledger)
    (rows : List (List ℕ)) (s' : Ledger) : Prop :=
  ∃ moves stop, (∀ text ∈ texts, x.Hops text special index moves stop) ∧
    (∃ backend, x.chain[stop]? = some backend ∧
      List.Forall₂ (fun text ids => x.Answers backend text special ids) texts rows) ∧
    x.Adds s s' (texts.flatMap fun _ => moves) (texts.map fun _ => stop)

/-- A group falls down the chain as a unit, and only the reference backend can fail. -/
theorem wp_encodeBatchFrom (hexact : x.Exact) {texts : List τ} {special : Bool}
    {inputBytes : List (Option ℕ)} {selectedStart : ℕ} (hstart : selectedStart ≤ x.referenceIndex)
    (hbytes : inputBytes.length = texts.length) (index : ℕ) (hindex : index ≤ x.referenceIndex)
    (s : Ledger) :
    wp (x.encodeBatchFrom index texts special inputBytes selectedStart)
      (x.GroupReached texts special index s)
      (fun _ _ => ∃ text ∈ texts, ∀ ids, ¬x.Answers BACKEND_REFERENCE text special ids) s := by
  induction hn : x.referenceIndex - index using Nat.strong_induction_on generalizing index s with
  | _ n ih =>
    obtain ⟨backend, encoder, hbackend, hmem, hencoder⟩ := exists_encoder hindex
    have hrows := hexact.rows backend hmem encoder hencoder texts special
    rw [encodeBatchFrom]
    split
    · next hnone => exact absurd (hnone.symm.trans hbackend) (Option.some_ne_none _).symm
    next found hfound =>
    obtain rfl := Option.some.inj (hbackend.symm.trans hfound)
    rw [wp_bind]
    refine wp_encoder hencoder ?_
    cases hbatch : encoder.encodeBatch texts special with
    | ok rows =>
        rw [wp_bind]
        refine wp_mono (wp_forM_adds inputBytes s fun s size _ => wp_recordExecution s hstart hbackend)
          (fun _ s' hadds => ?_) fun _ _ h => h
        refine ⟨[], index, fun text _ => .stay index, ⟨backend, hbackend, ?_⟩, ?_⟩
        · exact ((hrows rows).mp hbatch).imp fun text ids hids => ⟨encoder, hencoder, hids⟩
        · have hnone : (inputBytes.flatMap fun _ => ([] : List Move)) = texts.flatMap fun _ => [] := by
            rw [List.flatMap_eq_nil_iff.mpr fun _ _ => rfl, List.flatMap_eq_nil_iff.mpr fun _ _ => rfl]
          have hstops : (inputBytes.flatMap fun _ => [index]) = texts.map fun _ => index := by
            rw [← List.map_eq_flatMap, List.map_const', List.map_const', hbytes]
          exact hnone ▸ hstops ▸ hadds
    | error failure =>
        have hfail : ∀ rows,
            ¬List.Forall₂ (fun text ids => x.Answers backend text special ids) texts rows := by
          intro rows hall
          have hok := (hrows rows).mpr (hall.imp fun text ids hids => by
            obtain ⟨encoder', hencoder', hids⟩ := hids
            rwa [Option.some.inj (hencoder.symm.trans hencoder')])
          cases hbatch.symm.trans hok
        by_cases hreference : backend = BACKEND_REFERENCE
        · subst hreference
          have hrefused := exists_not_answers hfail
          cases failure with
          | fault exc =>
              dsimp only
              rw [if_pos rfl]
              exact hrefused
          | other name message => exact hrefused
        · obtain ⟨exc, rfl⟩ := hexact.batch_fault _ hmem hreference _ hencoder _ _ _ hbatch
          have hlt := x.lt_referenceIndex hbackend hreference
          dsimp only
          rw [if_neg hreference, wp_bind]
          refine wp_backendAt hlt fun target htarget => ?_
          rw [wp_bind]
          refine wp_mono (wp_forM_adds texts s fun s text _ => wp_recordFault s hbackend htarget)
            (fun _ s' hadds => ?_) fun _ _ h => h
          refine wp_mono (ih _ (by omega) (index + 1) hlt s' rfl) (fun rows s'' hrest => ?_)
            fun _ _ h => h
          obtain ⟨moves, stop, hhops, hanswered, hadds'⟩ := hrest
          refine ⟨⟨faultCode exc, index, index + 1⟩ :: moves, stop, fun text htext => ?_, hanswered, ?_⟩
          · exact .fault hbackend ⟨encoder, hencoder, .inr ⟨texts, htext, hbatch⟩⟩ hlt (hhops text htext)
          · refine (hadds.trans hadds').perm ?_ ?_
            · exact List.flatMap_append_perm texts (fun _ => [_]) fun _ => moves
            · rw [List.flatMap_eq_nil_iff.mpr fun _ _ => rfl, List.nil_append]

/-- An input on its way, before the move that its size is recorded as: `Reached` with the way kept. -/
structure Tail (x : RoutedExecutor τ) (special : Bool) (p : Passage τ) : Prop where
  special_eq : p.special = special
  hops : x.Hops p.text special p.start p.moves p.stop
  answered : ∃ backend, x.chain[p.stop]? = some backend ∧ x.Answers backend p.text special p.ids

theorem Tail.answers {special : Bool} {p : Passage τ} (hexact : x.Exact) (h : x.Tail special p) :
    x.Answers BACKEND_REFERENCE p.text special p.ids := by
  obtain ⟨backend, hbackend, hids⟩ := h.answered
  exact hexact.reference (List.mem_of_getElem? hbackend) hids

/-- The reference backend has no threshold, so the search always ends. -/
theorem exists_threshold (size : ℕ) : ∃ start,
    (x.thresholds.findIdx? fun threshold => threshold ≤ size) = some start ∧ start ≤ x.referenceIndex := by
  have hlast : x.thresholds[x.referenceIndex]? = some 0 := by
    rw [thresholds, List.getElem?_map, x.getElem?_referenceIndex, Option.map_some, x.reference_zero]
  have hmem : (0 : ℕ) ∈ x.thresholds := List.mem_of_getElem? hlast
  have hsome : (x.thresholds.findIdx? fun threshold => threshold ≤ size).isSome = true := by
    rw [List.findIdx?_isSome, List.any_eq_true]
    exact ⟨0, hmem, by simp⟩
  obtain ⟨start, hstart⟩ := Option.isSome_iff_exists.mp hsome
  refine ⟨start, hstart, ?_⟩
  by_contra hgt
  obtain ⟨hlt, -, hbefore⟩ := List.findIdx?_eq_some_iff_getElem.mp hstart
  obtain ⟨hindex, hzero⟩ := List.getElem?_eq_some_iff.mp hlast
  refine hbefore x.referenceIndex (by omega) ?_
  rw [hzero]
  exact decide_eq_true (Nat.zero_le size)

section Requests

variable [Memchr] {utf8View : τ → Option (List UInt8)}

/-! ## The start of a text -/

/-- What the selector and the exact literal decision say of one text. -/
structure Started (x : RoutedExecutor τ) (utf8View : τ → Option (List UInt8)) (text : τ)
    (route : Option ℕ × ℕ × Bool) : Prop where
  starts : x.Starts (utf8View text) route.2.1
  start_le : route.2.1 ≤ x.referenceIndex
  holds : route.2.2 = true → x.HoldsLiteral text

/-- The selector chooses the first backend whose threshold the size meets. -/
theorem starts_decide (view : Option (List UInt8)) :
    x.Starts view (x.decide view).startIndex ∧ (x.decide view).startIndex ≤ x.referenceIndex := by
  cases view with
  | none => exact ⟨rfl, le_rfl⟩
  | some bytes =>
      obtain ⟨start, hstart, hle⟩ := exists_threshold (x := x) bytes.length
      have hindex : (x.decide (some bytes)).startIndex = start := by
        simp only [decide, hstart, Option.getD_some]
      rw [hindex]
      obtain ⟨hlt, hmeets, hbefore⟩ := List.findIdx?_eq_some_iff_getElem.mp hstart
      refine ⟨⟨⟨x.thresholds[start], List.getElem?_eq_getElem hlt, by simpa using hmeets⟩, ?_⟩, hle⟩
      intro index hindex threshold hthreshold
      obtain ⟨hlt', rfl⟩ := List.getElem?_eq_some_iff.mp hthreshold
      simpa using hbefore index hindex

theorem belowMoves_decide (view : Option (List UInt8)) :
    x.belowMoves view (x.decide view).startIndex =
      if (x.decide view).belowGpuThreshold then
        [⟨R_INPUT_BELOW_GPU_THRESHOLD, 0, (x.decide view).startIndex⟩]
      else [] := by
  cases view with
  | none => rfl
  | some bytes =>
      unfold belowMoves
      refine if_congr ?_ rfl rfl
      simp [decide]

theorem head?_of_belowGpuThreshold {view : Option (List UInt8)}
    (h : (x.decide view).belowGpuThreshold = true) : x.chain[0]? = some BACKEND_GPU := by
  cases view with
  | none => cases h
  | some bytes =>
      rw [← List.head?_eq_getElem?]
      have : x.chain.head? = some BACKEND_GPU ∧ _ := of_decide_eq_true h
      exact this.1

theorem wp_startingRoute {R : Failure → Ledger → Prop} (text : τ) (s : Ledger) :
    wp (x.startingRoute utf8View text)
      (fun route s' => x.Started utf8View text route ∧
        x.Adds s s' (x.belowMoves (utf8View text) route.2.1) []) R s := by
  obtain ⟨hstarts, hle⟩ := starts_decide (x := x) (utf8View text)
  have hholds : ((x.decide (utf8View text)).literalCandidate &&
      x.addedRouter.any fun router => router.holdsLiteral text) = true → x.HoldsLiteral text := by
    intro h
    exact (Option.any_eq_true _ _).mp (Bool.and_eq_true_iff.mp h).2
  have hbelow := belowMoves_decide (x := x) (utf8View text)
  unfold startingRoute
  dsimp only
  split_ifs with hgpu
  · rw [if_pos hgpu] at hbelow
    rw [wp_bind]
    refine wp_backendAt hle fun target htarget => ?_
    rw [wp_bind]
    refine wp_mono (wp_record ⟨R_INPUT_BELOW_GPU_THRESHOLD, 0, _⟩ s rfl
      (head?_of_belowGpuThreshold hgpu) htarget) (fun _ s' hadds => ?_) fun _ _ h => h
    exact ⟨⟨hstarts, hle, hholds⟩, hbelow ▸ hadds⟩
  · rw [if_neg hgpu] at hbelow
    exact ⟨⟨hstarts, hle, hholds⟩, hbelow ▸ Adds.refl s⟩

/-! ## One text -/

/-- The whole way of an input: the move its size is recorded as comes first. -/
def whole (x : RoutedExecutor τ) (utf8View : τ → Option (List UInt8)) (p : Passage τ) : Passage τ :=
  { p with moves := x.belowMoves (utf8View p.text) p.start ++ p.moves }

omit [Memchr] in
theorem forward_belowMoves {view : Option (List UInt8)} {start stop : ℕ} (hle : start ≤ stop) :
    ∀ move ∈ x.belowMoves view start, move.source < move.target ∧ move.target ≤ stop := by
  intro move hmove
  unfold belowMoves at hmove
  split_ifs at hmove with hbelow
  · obtain rfl := List.mem_singleton.mp hmove
    exact ⟨hbelow.2.2, hle⟩
  · exact absurd hmove List.not_mem_nil

omit [Memchr] in
theorem Tail.valid {special : Bool} {p : Passage τ} {route : Option ℕ × ℕ × Bool}
    (h : x.Tail special p) (hstart : p.start = route.2.1)
    (hroute : x.Started utf8View p.text route) : x.Valid utf8View (x.whole utf8View p) where
  starts := hstart ▸ hroute.starts
  hops := ⟨p.moves, rfl, h.special_eq ▸ h.hops⟩
  forward := by
    intro move hmove
    rcases List.mem_append.mp hmove with hbelow | htail
    · exact forward_belowMoves h.hops.le move hbelow
    · exact h.hops.forward move htail
  start_le := h.hops.le
  stop_le := h.hops.stop_le (hstart ▸ hroute.start_le)
  answered := h.special_eq ▸ h.answered

/-- What a call did: its passages, in the order of its inputs. -/
def Carried (x : RoutedExecutor τ) (utf8View : τ → Option (List UInt8)) (inputs : List (τ × Bool))
    (s : Ledger) (rows : List (List ℕ)) (s' : Ledger) : Prop :=
  ∃ passages : List (Passage τ),
    (passages.map fun p => (p.text, p.special)) = inputs ∧ passages.map Passage.ids = rows ∧
      (∀ p ∈ passages, x.Valid utf8View p) ∧
        x.Adds s s' (passages.flatMap Passage.moves) (passages.map Passage.stop)

omit [Memchr] in
theorem Carried.refl (s : Ledger) : x.Carried utf8View [] s [] s :=
  ⟨[], rfl, rfl, fun _ hp => absurd hp List.not_mem_nil, Adds.refl s⟩

omit [Memchr] in
theorem Carried.trans {inputs inputs' : List (τ × Bool)} {rows rows' : List (List ℕ)}
    {s s' s'' : Ledger} (h : x.Carried utf8View inputs s rows s')
    (h' : x.Carried utf8View inputs' s' rows' s'') :
    x.Carried utf8View (inputs ++ inputs') s (rows ++ rows') s'' := by
  obtain ⟨passages, rfl, rfl, hvalid, hadds⟩ := h
  obtain ⟨passages', rfl, rfl, hvalid', hadds'⟩ := h'
  refine ⟨passages ++ passages', List.map_append, List.map_append, fun p hp => ?_, ?_⟩
  · exact (List.mem_append.mp hp).elim (hvalid p) (hvalid' p)
  · rw [List.flatMap_append, List.map_append]
    exact hadds.trans hadds'

omit [Memchr] in
/-- The rows of a call are the answers of the reference backend. -/
theorem Carried.answers (hexact : x.Exact) {inputs : List (τ × Bool)} {rows : List (List ℕ)}
    {s s' : Ledger} (h : x.Carried utf8View inputs s rows s') :
    List.Forall₂ (fun input ids => x.Answers BACKEND_REFERENCE input.1 input.2 ids) inputs rows := by
  obtain ⟨passages, rfl, rfl, hvalid, -⟩ := h
  rw [List.forall₂_map_left_iff, List.forall₂_map_right_iff, List.forall₂_same]
  intro p hp
  obtain ⟨backend, hbackend, hids⟩ := (hvalid p hp).answered
  exact hexact.reference (List.mem_of_getElem? hbackend) hids

omit [Memchr] in
/-- The starts of the inputs come first, and then the rest of their ways, in any order. -/
theorem carried_of_tails {special : Bool} {s s' s'' : Ledger} {rows : List (List ℕ)}
    (routed : List (τ × (Option ℕ × ℕ × Bool))) (tails : List (Passage τ))
    (hstarted : ∀ z ∈ routed, x.Started utf8View z.1 z.2)
    (hbelow : x.Adds s s' (routed.flatMap fun z => x.belowMoves (utf8View z.1) z.2.2.1) [])
    (htails : ∀ p ∈ tails, x.Tail special p)
    (hkeys : (tails.map fun p => (p.text, p.start)) = routed.map fun z => (z.1, z.2.2.1))
    (hrows : tails.map Passage.ids = rows)
    (hadds : x.Adds s' s'' (tails.flatMap Passage.moves) (tails.map Passage.stop)) :
    x.Carried utf8View (routed.map fun z => (z.1, special)) s rows s'' := by
  have hmoves : (routed.flatMap fun z => x.belowMoves (utf8View z.1) z.2.2.1) =
      tails.flatMap fun p => x.belowMoves (utf8View p.text) p.start := by
    have := congrArg (List.flatMap fun key => x.belowMoves (utf8View key.1) key.2) hkeys
    rwa [List.flatMap_map, List.flatMap_map, eq_comm] at this
  refine ⟨tails.map (x.whole utf8View), ?_, ?_, fun p hp => ?_, ?_⟩
  · have hinputs := congrArg (List.map fun key => (key.1, special)) hkeys
    rw [List.map_map, List.map_map] at hinputs
    rw [List.map_map]
    refine Eq.trans (List.map_congr_left fun p hp => ?_) hinputs
    exact congrArg (Prod.mk p.text) (htails p hp).special_eq
  · rw [List.map_map]
    exact hrows
  · obtain ⟨tail, htail, rfl⟩ := List.mem_map.mp hp
    have hkey := List.mem_map_of_mem (f := fun p => (p.text, p.start)) htail
    rw [hkeys] at hkey
    obtain ⟨z, hz, hzkey⟩ := List.mem_map.mp hkey
    obtain ⟨htext, hstart⟩ := Prod.mk.inj hzkey
    exact (htails tail htail).valid hstart.symm (htext ▸ hstarted z hz)
  · rw [List.flatMap_map, List.map_map]
    refine (hbelow.trans hadds).perm ?_ (List.Perm.refl _)
    rw [hmoves]
    exact List.flatMap_append_perm _ _ _

/-- One text. -/
theorem wp_encode (hexact : x.Exact) (text : τ) (special : Bool) (s : Ledger) :
    wp (x.encode utf8View text special)
      (fun ids s' => x.Carried utf8View [(text, special)] s [ids] s')
      (fun _ _ => ∀ ids, ¬x.Answers BACKEND_REFERENCE text special ids) s := by
  rw [encode, wp_bind]
  refine wp_mono (wp_startingRoute text s) (fun route s' h => ?_) fun _ _ h => h
  obtain ⟨inputBytes, start, holdsLiteral⟩ := route
  obtain ⟨hstarted, hbelow⟩ := h
  refine wp_mono (wp_encodeFrom hexact hstarted.start_le hstarted.holds start hstarted.start_le s')
    (fun ids s'' hreached => ?_) fun _ _ h => h
  obtain ⟨moves, stop, hhops, hanswered, hadds⟩ := hreached
  rw [← List.flatMap_singleton (fun z => x.belowMoves (utf8View z.1) z.2.2.1)
    (text, inputBytes, start, holdsLiteral)] at hbelow
  refine carried_of_tails _ [⟨text, special, start, moves, stop, ids⟩]
    (List.forall_mem_singleton.mpr hstarted) hbelow
    (List.forall_mem_singleton.mpr ⟨rfl, hhops, hanswered⟩) rfl rfl ?_
  rw [List.flatMap_singleton]
  exact hadds

/-! ## A batch -/

/-- The rows of the groups that are done: an input that is placed has its row, and every row is the
answer of the reference backend. -/
structure GroupsDone (x : RoutedExecutor τ) (texts : List τ) (special : Bool) (s : Ledger)
    (done : List (ℕ × List ℕ)) (output : List (Option (List ℕ))) (s' : Ledger) : Prop where
  length_eq : output.length = texts.length
  answers : ∀ (position : ℕ) (row : List ℕ), output[position]? = some (some row) → ∀ text,
    texts[position]? = some text → x.Answers BACKEND_REFERENCE text special row
  tails : ∃ tails : List (ℕ × Passage τ), (tails.map fun tail => (tail.2.start, tail.1)) = placed done ∧
    (∀ tail ∈ tails, texts[tail.1]? = some tail.2.text ∧ x.Tail special tail.2 ∧ Filled output tail.1) ∧
    x.Adds s s' (tails.flatMap fun tail => tail.2.moves) (tails.map fun tail => tail.2.stop)

omit [Memchr] in
/-- The ways of a group's inputs. -/
theorem exists_tails {texts : List τ} {special : Bool} {start stop : ℕ} {moves : List Move}
    {positions : List ℕ} {group : List τ} {rows : List (List ℕ)} {backend : String}
    (hgroup : List.Forall₂ (fun position text => texts[position]? = some text) positions group)
    (hhops : ∀ text ∈ group, x.Hops text special start moves stop)
    (hstop : x.chain[stop]? = some backend)
    (hrows : List.Forall₂ (fun text ids => x.Answers backend text special ids) group rows) :
    ∃ tails : List (ℕ × Passage τ),
      (tails.map fun tail => (tail.2.start, tail.1)) = (positions.map fun position => (start, position)) ∧
      (∀ tail ∈ tails, (tail.1, tail.2.ids) ∈ positions.zip rows ∧ texts[tail.1]? = some tail.2.text ∧
        x.Tail special tail.2) ∧
      (tails.flatMap fun tail => tail.2.moves) = (group.flatMap fun _ => moves) ∧
      (tails.map fun tail => tail.2.stop) = group.map fun _ => stop := by
  induction hgroup generalizing rows with
  | nil => exact ⟨[], rfl, fun _ h => absurd h List.not_mem_nil, rfl, rfl⟩
  | @cons position text positions group htext hgroup ih =>
      obtain ⟨ids, rows, hids, hrest, rfl⟩ := List.forall₂_cons_left_iff.mp hrows
      obtain ⟨tails, hkeys, htails, hmoves, hstops⟩ :=
        ih (fun text h => hhops text (List.mem_cons_of_mem _ h)) hrest
      refine ⟨(position, ⟨text, special, start, moves, stop, ids⟩) :: tails, ?_, ?_, ?_, ?_⟩
      · rw [List.map_cons, List.map_cons, hkeys]
      · intro tail htail
        rcases List.mem_cons.mp htail with rfl | htail
        · exact ⟨List.mem_cons_self, htext, rfl, hhops text List.mem_cons_self, backend, hstop, hids⟩
        · obtain ⟨hzip, hrest⟩ := htails tail htail
          exact ⟨List.mem_cons_of_mem _ hzip, hrest⟩
      · rw [List.flatMap_cons, List.flatMap_cons, hmoves]
      · rw [List.map_cons, List.map_cons, hstops]

omit [Memchr] in
/-- One group: its rows are filled in, and its moves are added. -/
theorem wp_encodeGroup (hexact : x.Exact) {texts : List τ} {special : Bool}
    {routes : List (Option ℕ × ℕ × Bool)} (hroutes : routes.length = texts.length) {s s' : Ledger}
    {done : List (ℕ × List ℕ)} {output : List (Option (List ℕ))} {group : ℕ × List ℕ}
    (hstart : group.1 ≤ x.referenceIndex) (hpositions : ∀ position ∈ group.2, position < texts.length)
    (h : x.GroupsDone texts special s done output s') :
    wp (x.encodeGroup texts routes special output group) (x.GroupsDone texts special s (done ++ [group]))
      (fun _ _ => ∃ text ∈ texts, ∀ ids, ¬x.Answers BACKEND_REFERENCE text special ids) s' := by
  obtain ⟨start, positions⟩ := group
  have hgroup : List.Forall₂ (fun position text => texts[position]? = some text) positions
      (positions.filterMap fun position => texts[position]?) := by
    refine forall₂_filterMap fun position hposition => ?_
    rw [List.getElem?_eq_getElem (hpositions position hposition)]
    rfl
  have hbytes : (positions.filterMap fun position => routes[position]?.map Prod.fst).length =
      (positions.filterMap fun position => texts[position]?).length := by
    rw [← hgroup.length_eq]
    refine (forall₂_filterMap fun position hposition => ?_).length_eq.symm
    rw [List.getElem?_eq_getElem (hroutes ▸ hpositions position hposition)]
    rfl
  rw [encodeGroup, wp_bind]
  refine wp_mono (wp_encodeBatchFrom hexact hstart hbytes start hstart s') (fun rows s'' hreached => ?_)
    fun _ _ hfail => ?_
  · obtain ⟨moves, stop, hhops, ⟨backend, hstop, hrows⟩, hadds⟩ := hreached
    obtain ⟨tails, hkeys, htails, hmoves, hstops⟩ := exists_tails hgroup hhops hstop hrows
    have hlength : rows.length = positions.length := hrows.length_eq.symm.trans hgroup.length_eq.symm
    dsimp only
    rw [if_pos hlength]
    obtain ⟨tails', hkeys', htails', hadds'⟩ := h.tails
    refine ⟨?_, ?_, tails' ++ tails, ?_, ?_, ?_⟩
    · rw [length_fill, h.length_eq]
    · intro position row hrow text htext
      rcases of_getElem?_fill hrow with hzip | hbefore
      · obtain ⟨text', htext', hids⟩ := List.forall₂_zip (forall₂_comp hgroup hrows) hzip
        obtain rfl := Option.some.inj (htext.symm.trans htext')
        exact hexact.reference (List.mem_of_getElem? hstop) hids
      · exact h.answers position row hbefore text htext
    · rw [List.map_append, hkeys', hkeys, placed, placed, List.flatMap_append, List.flatMap_singleton]
    · intro tail htail
      rcases List.mem_append.mp htail with hbefore | hnow
      · obtain ⟨htext, htail, hfilled⟩ := htails' tail hbefore
        exact ⟨htext, htail, hfilled.fill _⟩
      · obtain ⟨hzip, htext, htail⟩ := htails tail hnow
        refine ⟨htext, htail, filled_fill hzip ?_⟩
        rw [h.length_eq]
        exact (List.getElem?_eq_some_iff.mp htext).1
    · rw [List.flatMap_append, List.map_append, hmoves, hstops]
      exact hadds'.trans hadds
  · obtain ⟨text, htext, hnone⟩ := hfail
    obtain ⟨position, -, hposition⟩ := List.mem_filterMap.mp htext
    exact ⟨text, List.mem_of_getElem? hposition, hnone⟩

/-- The routes of a batch: every text has its own start, recorded before any text is encoded. -/
theorem wp_routes {R : Failure → Ledger → Prop} (texts : List τ) (s : Ledger) :
    wp (texts.mapM (x.startingRoute utf8View))
      (fun routes s' => ∃ routed : List (τ × (Option ℕ × ℕ × Bool)),
        routed.map Prod.fst = texts ∧ routed.map Prod.snd = routes ∧
          (∀ z ∈ routed, x.Started utf8View z.1 z.2) ∧
            x.Adds s s' (routed.flatMap fun z => x.belowMoves (utf8View z.1) z.2.2.1) []) R s := by
  refine wp_mono (wp_mapM (E := fun _ => False) (fun done routes s' =>
    ∃ routed : List (τ × (Option ℕ × ℕ × Bool)),
      routed.map Prod.fst = done ∧ routed.map Prod.snd = routes ∧
        (∀ z ∈ routed, x.Started utf8View z.1 z.2) ∧
          x.Adds s s' (routed.flatMap fun z => x.belowMoves (utf8View z.1) z.2.2.1) []) texts
    ⟨[], rfl, rfl, fun _ h => absurd h List.not_mem_nil, Adds.refl s⟩ ?_) (fun _ _ h => h) ?_
  · rintro done text rest - routes s' ⟨routed, hdone, hroutes, hstarted, hadds⟩
    refine wp_mono (wp_startingRoute text s') (fun route s'' h => ?_) fun _ _ h => h
    refine ⟨routed ++ [(text, route)], ?_, ?_, fun z hz => ?_, ?_⟩
    · rw [List.map_append, hdone, List.map_singleton]
    · rw [List.map_append, hroutes, List.map_singleton]
    · rcases List.mem_append.mp hz with hz | hz
      · exact hstarted z hz
      · obtain rfl := List.mem_singleton.mp hz
        exact h.1
    · rw [List.flatMap_append, List.flatMap_singleton]
      exact hadds.trans h.2
  · rintro failure s' ⟨_, _, hfalse⟩
    exact hfalse.elim

/-- The ways of a batch's inputs, from their starts on. -/
def Travelled (x : RoutedExecutor τ) (special : Bool) (routed : List (τ × (Option ℕ × ℕ × Bool)))
    (s : Ledger) (rows : List (List ℕ)) (s' : Ledger) : Prop :=
  ∃ tails : List (Passage τ), (∀ p ∈ tails, x.Tail special p) ∧
    (tails.map fun p => (p.text, p.start)) = (routed.map fun z => (z.1, z.2.2.1)) ∧
    tails.map Passage.ids = rows ∧
    x.Adds s s' (tails.flatMap Passage.moves) (tails.map Passage.stop)

omit [Memchr] in
/-- With a literal in the batch, all inputs go one by one. -/
theorem wp_inputs (hexact : x.Exact) {special : Bool} (routed : List (τ × (Option ℕ × ℕ × Bool)))
    (hstarted : ∀ z ∈ routed, x.Started utf8View z.1 z.2) (s : Ledger) :
    wp (routed.mapM fun z => x.encodeFrom z.2.2.1 z.1 special z.2.2.2 z.2.1 z.2.2.1)
      (x.Travelled special routed s)
      (fun _ _ => ∃ z ∈ routed, ∀ ids, ¬x.Answers BACKEND_REFERENCE z.1 special ids) s := by
  refine wp_mapM (fun done rows s' => x.Travelled special done s rows s') routed
    ⟨[], fun _ h => absurd h List.not_mem_nil, rfl, rfl, Adds.refl s⟩ ?_
  rintro done z rest rfl rows s' ⟨tails, htails, hkeys, rfl, hadds⟩
  have hz := hstarted z (by simp)
  refine wp_mono (wp_encodeFrom hexact hz.start_le hz.holds z.2.2.1 hz.start_le s')
    (fun ids s'' hreached => ?_) fun _ _ h => h
  obtain ⟨moves, stop, hhops, hanswered, hadds'⟩ := hreached
  refine ⟨tails ++ [⟨z.1, special, z.2.2.1, moves, stop, ids⟩], fun p hp => ?_, ?_, ?_, ?_⟩
  · rcases List.mem_append.mp hp with hp | hp
    · exact htails p hp
    · obtain rfl := List.mem_singleton.mp hp
      exact ⟨rfl, hhops, hanswered⟩
  · rw [List.map_append, List.map_append, hkeys, List.map_singleton, List.map_singleton]
  · rw [List.map_append, List.map_singleton]
  · rw [List.flatMap_append, List.flatMap_singleton, List.map_append, List.map_singleton]
    exact hadds.trans hadds'

omit [Memchr] in
/-- When the groups are done, every input has its row. -/
theorem GroupsDone.travelled (hexact : x.Exact) {special : Bool}
    {routed : List (τ × (Option ℕ × ℕ × Bool))} {s s' : Ledger} {output : List (Option (List ℕ))}
    (h : x.GroupsDone (routed.map Prod.fst) special s
      (groupStarts [] 0 (routed.map fun z => z.2.2.1)) output s') :
    ∃ rows, output = rows.map some ∧ x.Travelled special routed s rows s' := by
  obtain ⟨tails, hkeys, htails, hadds⟩ := h.tails
  have hplaced : (tails.map fun tail => (tail.2.start, tail.1)).Perm
      ((routed.map fun z => z.2.2.1).zipIdx 0) :=
    hkeys ▸ placed_groupStarts [] 0 (routed.map fun z => z.2.2.1)
  -- the ways in the order of the inputs
  obtain ⟨sorted, hsorted, hperm⟩ := List.perm_comp_forall₂ hplaced.symm
    (List.forall₂_map_left_iff.mpr (List.forall₂_same.mpr fun tail _ => rfl) :
      List.Forall₂ (fun key (tail : ℕ × Passage τ) => key = (tail.2.start, tail.1)) _ tails)
  have hinputs : (routed.map fun z => z.2.2.1).zipIdx 0 =
      sorted.map fun tail => (tail.2.start, tail.1) := by
    have hall := List.forall₂_map_right_iff.mpr hsorted
    rwa [List.forall₂_eq_eq_eq] at hall
  have hmem : ∀ tail ∈ sorted, (routed.map Prod.fst)[tail.1]? = some tail.2.text ∧
      x.Tail special tail.2 ∧ Filled output tail.1 := fun tail htail => htails tail (hperm.mem_iff.mp htail)
  have hlength : (routed.map Prod.fst).length = routed.length := List.length_map _
  have hpositions : sorted.map Prod.fst = List.range routed.length := by
    have hsnd := congrArg (List.map Prod.snd) hinputs
    rw [List.zipIdx_map_snd, List.length_map, List.map_map, ← List.range_eq_range'] at hsnd
    exact hsnd.symm
  have hstarts : (sorted.map fun tail => tail.2.start) = routed.map fun z => z.2.2.1 := by
    have hfst := congrArg (List.map Prod.fst) hinputs
    rw [List.zipIdx_map_fst, List.map_map] at hfst
    exact hfst.symm
  have htexts : (sorted.map fun tail => tail.2.text) = routed.map Prod.fst :=
    map_eq_of_positions (hlength.symm ▸ hpositions) fun tail htail => (hmem tail htail).1
  have houtput : (sorted.map fun tail => some tail.2.ids) = output := by
    refine map_eq_of_positions (h.length_eq ▸ hlength.symm ▸ hpositions) fun tail htail => ?_
    obtain ⟨htext, hway, row, hrow⟩ := hmem tail htail
    rw [hrow, (h.answers tail.1 row hrow _ htext).functional (hway.answers hexact)]
  refine ⟨sorted.map fun tail => tail.2.ids, ?_, sorted.map Prod.snd, ?_, ?_, ?_, ?_⟩
  · rw [List.map_map]
    exact houtput.symm
  · intro p hp
    obtain ⟨tail, htail, rfl⟩ := List.mem_map.mp hp
    exact (hmem tail htail).2.1
  · rw [List.map_map]
    calc (sorted.map fun tail => (tail.2.text, tail.2.start)) =
          (sorted.map fun tail => tail.2.text).zip (sorted.map fun tail => tail.2.start) :=
            (List.zip_map' ..).symm
      _ = (routed.map Prod.fst).zip (routed.map fun z => z.2.2.1) := by rw [htexts, hstarts]
      _ = routed.map fun z => (z.1, z.2.2.1) := List.zip_map' ..
  · rw [List.map_map]
    rfl
  · rw [List.flatMap_map, List.map_map]
    exact hadds.perm (hperm.symm.flatMap_right _) (hperm.symm.map _)

omit [Memchr] in
/-- Without a literal, the inputs go in groups, one for each start. -/
theorem wp_groups (hexact : x.Exact) {special : Bool} (routed : List (τ × (Option ℕ × ℕ × Bool)))
    (hle : ∀ z ∈ routed, z.2.2.1 ≤ x.referenceIndex) (s : Ledger) :
    wp ((groupStarts [] 0 (routed.map fun z => z.2.2.1)).foldlM
        (x.encodeGroup (routed.map Prod.fst) (routed.map Prod.snd) special)
        (List.replicate (routed.map Prod.fst).length none))
      (x.GroupsDone (routed.map Prod.fst) special s (groupStarts [] 0 (routed.map fun z => z.2.2.1)))
      (fun _ _ => ∃ text ∈ routed.map Prod.fst, ∀ ids, ¬x.Answers BACKEND_REFERENCE text special ids)
      s := by
  refine wp_foldlM (x.GroupsDone (routed.map Prod.fst) special s) _ ?_ ?_
  · refine ⟨List.length_replicate, fun position row hrow => ?_, [], rfl,
      fun _ h => absurd h List.not_mem_nil, Adds.refl s⟩
    have hnone := List.eq_of_mem_replicate (List.mem_of_getElem? hrow)
    cases hnone
  · intro done group rest hgroups output s' hdone
    have hgroup : group ∈ groupStarts [] 0 (routed.map fun z => z.2.2.1) := by
      rw [hgroups]
      exact List.mem_append_right _ List.mem_cons_self
    refine wp_encodeGroup hexact (by rw [List.length_map, List.length_map]) ?_ (fun position h => ?_) hdone
    · rcases mem_groupStarts hgroup with hstart | ⟨_, hnil, -⟩
      · obtain ⟨z, hz, hstart⟩ := List.mem_map.mp hstart
        exact hstart ▸ hle z hz
      · exact absurd hnil List.not_mem_nil
    · have hplaced : (group.1, position) ∈ placed (groupStarts [] 0 (routed.map fun z => z.2.2.1)) :=
        List.mem_flatMap.mpr ⟨group, hgroup, List.mem_map_of_mem h⟩
      have hzip := (placed_groupStarts [] 0 _).mem_iff.mp hplaced
      rw [placed, List.flatMap_nil, List.nil_append] at hzip
      have := List.snd_lt_of_mem_zipIdx hzip
      rw [List.length_map] at this ⊢
      omega

/-- A batch. -/
theorem wp_encodeBatch (hexact : x.Exact) (texts : List τ) (special : Bool) (s : Ledger) :
    wp (x.encodeBatch utf8View texts special)
      (x.Carried utf8View (texts.map fun text => (text, special)) s)
      (fun _ _ => ∃ text ∈ texts, ∀ ids, ¬x.Answers BACKEND_REFERENCE text special ids) s := by
  unfold encodeBatch
  split_ifs with hempty
  · obtain rfl := List.isEmpty_iff.mp hempty
    exact Carried.refl s
  rw [wp_bind]
  refine wp_mono (wp_routes texts s) (fun routes s' h => ?_) fun _ _ h => h
  obtain ⟨routed, rfl, rfl, hstarted, hbelow⟩ := h
  have hcarried : ∀ rows s'', x.Travelled special routed s' rows s'' →
      x.Carried utf8View ((routed.map Prod.fst).map fun text => (text, special)) s rows s'' := by
    rintro rows s'' ⟨tails, htails, hkeys, hrows, hadds⟩
    rw [List.map_map]
    exact carried_of_tails routed tails hstarted hbelow htails hkeys hrows hadds
  split_ifs with hliteral
  · have hzip : (routed.map Prod.fst).zip (routed.map Prod.snd) = routed := by
      rw [List.zip_map']
      exact List.map_id routed
    rw [hzip]
    refine wp_mono (wp_inputs hexact routed hstarted s') hcarried ?_
    rintro failure s'' ⟨z, hz, hnone⟩
    exact ⟨z.1, List.mem_map_of_mem hz, hnone⟩
  · rw [List.map_map, wp_bind]
    refine wp_mono (wp_groups hexact routed (fun z hz => (hstarted z hz).start_le) s')
      (fun output s'' hdone => ?_) fun _ _ h => h
    obtain ⟨rows, rfl, htravelled⟩ := hdone.travelled hexact
    rw [mapM_id_map_some]
    exact hcarried rows s'' htravelled

/-! ## Calls, one after another -/

/-- A call, with the rows it gives. -/
def call (x : RoutedExecutor τ) (utf8View : τ → Option (List UInt8)) : Call τ → Request (List (List ℕ))
  | .encode text special => (fun ids => [ids]) <$> x.encode utf8View text special
  | .encodeBatch texts special => x.encodeBatch utf8View texts special

theorem wp_call (hexact : x.Exact) (call : Call τ) (s : Ledger) :
    wp (x.call utf8View call) (x.Carried utf8View call.inputs s) (fun _ _ => True) s := by
  cases call with
  | encode text special =>
      rw [RoutedExecutor.call, wp_map]
      exact wp_mono (wp_encode hexact text special s) (fun _ _ h => h) fun _ _ _ => trivial
  | encodeBatch texts special =>
      exact wp_mono (wp_encodeBatch hexact texts special s) (fun _ _ h => h) fun _ _ _ => trivial

theorem wp_calls (hexact : x.Exact) (calls : List (Call τ)) (s : Ledger) :
    wp (calls.mapM (x.call utf8View))
      (fun results s' => x.Carried utf8View (calls.flatMap Call.inputs) s results.flatten s')
      (fun _ _ => ∃ call ∈ calls, True) s := by
  refine wp_mapM (fun done results s' =>
    x.Carried utf8View (done.flatMap Call.inputs) s results.flatten s') calls (Carried.refl s) ?_
  intro done call rest _ results s' hdone
  refine wp_mono (wp_call hexact call s') (fun rows s'' hcall => ?_) fun _ _ _ => trivial
  rw [List.flatMap_append, List.flatMap_singleton, List.flatten_append, List.flatten_singleton]
  exact hdone.trans hcall

/-- One text returns exactly when the reference backend answers it, and with its answer. -/
theorem encode_eq_ok (hexact : x.Exact) {text : τ} {special : Bool} {s : Ledger} {ids : List ℕ} :
    (∃ s', (x.encode utf8View text special).run s = .ok ids s') ↔
      x.Answers BACKEND_REFERENCE text special ids := by
  have h : wp (x.encode utf8View text special) _ _ s := wp_encode hexact text special s
  constructor
  · rintro ⟨s', hrun⟩
    obtain ⟨hids, -⟩ := List.forall₂_cons.mp ((h.of_ok hrun).answers hexact)
    exact hids
  · intro hids
    cases hrun : (x.encode utf8View text special).run s with
    | ok ids' s' =>
        obtain ⟨hids', -⟩ := List.forall₂_cons.mp ((h.of_ok hrun).answers hexact)
        exact ⟨s', by rw [hids.functional hids']⟩
    | error failure s' => exact absurd hids (h.of_error hrun ids)

/-- A batch returns exactly when the reference backend answers its texts, and with its answers. -/
theorem encodeBatch_eq_ok (hexact : x.Exact) {texts : List τ} {special : Bool} {s : Ledger}
    {rows : List (List ℕ)} :
    (∃ s', (x.encodeBatch utf8View texts special).run s = .ok rows s') ↔
      List.Forall₂ (fun text ids => x.Answers BACKEND_REFERENCE text special ids) texts rows := by
  have h : wp (x.encodeBatch utf8View texts special) _ _ s := wp_encodeBatch hexact texts special s
  constructor
  · rintro ⟨s', hrun⟩
    exact List.forall₂_map_left_iff.mp ((h.of_ok hrun).answers hexact)
  · intro hrows
    cases hrun : (x.encodeBatch utf8View texts special).run s with
    | ok rows' s' =>
        have hrows' := List.forall₂_map_left_iff.mp ((h.of_ok hrun).answers hexact)
        have hunique : Relator.RightUnique fun text ids => x.Answers BACKEND_REFERENCE text special ids :=
          fun _ _ _ hids hids' => hids.functional hids'
        exact ⟨s', by rw [List.right_unique_forall₂' hunique hrows hrows']⟩
    | error failure s' =>
        obtain ⟨text, htext, hnone⟩ := h.of_error hrun
        obtain ⟨i, hi, rfl⟩ := List.getElem_of_mem htext
        exact absurd (List.forall₂_iff_get.mp hrows |>.2 i hi (hrows.length_eq ▸ hi)) (hnone _)

omit [Memchr] in
/-- Over the backends of the chain, what is counted by stops adds up to the number of stops. -/
theorem sum_executions {passages : List (Passage τ)} (h : ∀ p ∈ passages, x.Valid utf8View p) :
    (x.chain.map fun backend => (passages.map Passage.stop).countP fun stop =>
      x.chain[stop]? = some backend).sum = passages.length := by
  have hnodup : (x.chain.map some).Nodup := x.chain_nodup.map (Option.some_injective String)
  have hmem : ∀ name ∈ (passages.map fun p => x.chain[p.stop]? : Multiset (Option String)),
      name ∈ (x.chain.map some).toFinset := by
    intro name hname
    obtain ⟨p, hp, rfl⟩ := List.mem_map.mp (Multiset.mem_coe.mp hname)
    obtain ⟨backend, hbackend, -⟩ := (h p hp).answered
    rw [List.mem_toFinset, hbackend]
    exact List.mem_map_of_mem (List.mem_of_getElem? hbackend)
  have hcard := Multiset.sum_count_eq_card hmem
  rw [List.sum_toFinset _ hnodup, List.map_map, Multiset.coe_card, List.length_map] at hcard
  rw [← hcard]
  refine congrArg List.sum (List.map_congr_left fun backend _ => ?_)
  rw [Function.comp_apply, Multiset.count, Multiset.coe_countP, List.countP_map, List.countP_map]
  exact List.countP_congr fun p _ => by simp [eq_comm]

/-- **A routed batch is its rows, one by one.** A batch returns, at every row, what one call of the
text returns. Over all calls that return, every input has one passage: it starts at the first entry
whose threshold it meets, moves forward only, and stops at the reference backend at the latest; the
execution counts are those of the stops and add up to the inputs, and the reasons are counted move
by move. -/
theorem encode_batch_rows {utf8View : τ → Option (List UInt8)} (hexact : x.Exact) :
    (∀ s s₀ texts special rows,
      (∃ s', (x.encodeBatch utf8View texts special).run s = .ok rows s') ↔
        List.Forall₂ (fun text ids => ∃ s', (x.encode utf8View text special).run s₀ = .ok ids s') texts
          rows) ∧
    ∀ (calls : List (Call τ)) (results : List (List (List ℕ))) (s' : Ledger),
      (calls.mapM (x.call utf8View)).run Ledger.empty = .ok results s' →
        ∃ passages : List (Passage τ),
        (passages.map fun p => (p.text, p.special)) = calls.flatMap Call.inputs ∧
        passages.map Passage.ids = results.flatten ∧
        (∀ p ∈ passages, x.Valid utf8View p) ∧
        (∀ code, s'.counts code = (passages.flatMap Passage.moves).countP fun move => move.code = code) ∧
        (∀ backend, s'.executionCounts backend =
          passages.countP fun p => x.chain[p.stop]? = some backend) ∧
        (x.chain.map s'.executionCounts).sum = (calls.flatMap Call.inputs).length ∧
        (x.diagnostics = true → (s'.events.map FallbackEvent.names).Perm
          ((passages.flatMap Passage.moves).map x.names)) := by
  constructor
  · intro s s₀ texts special rows
    simp only [encodeBatch_eq_ok hexact, encode_eq_ok hexact]
  · intro calls results s' hrun
    have h : wp (calls.mapM (x.call utf8View)) _ _ Ledger.empty := wp_calls hexact calls Ledger.empty
    obtain ⟨passages, hinputs, hids, hvalid, hadds⟩ := h.of_ok hrun
    have hexecutions : ∀ backend, s'.executionCounts backend =
        (passages.map Passage.stop).countP fun stop => x.chain[stop]? = some backend :=
      fun backend => (hadds.executionCounts backend).trans (Nat.zero_add _)
    refine ⟨passages, hinputs, hids, hvalid, fun code => ?_, fun backend => ?_, ?_, fun hdiagnostics => ?_⟩
    · exact (hadds.counts code).trans (Nat.zero_add _)
    · rw [hexecutions, List.countP_map]
      rfl
    · rw [← hinputs, List.length_map, ← sum_executions hvalid]
      exact congrArg List.sum (List.map_congr_left fun backend _ => hexecutions backend)
    · have hevents := hadds.events
      rw [if_pos hdiagnostics] at hevents
      exact hevents

end Requests

end RoutedExecutor

/-! ## Backends that encode their batches row by row -/

/-- A backend whose batch call makes one call for each row. -/
def rowwise {τ : Type} (encode : τ → Bool → Except Failure (List ℕ)) : Encoder τ :=
  ⟨encode, fun texts special => texts.mapM fun text => encode text special⟩

theorem rowwise_eq_ok {τ : Type} (encode : τ → Bool → Except Failure (List ℕ)) (texts : List τ)
    (special : Bool) (rows : List (List ℕ)) :
    (rowwise encode).encodeBatch texts special = .ok rows ↔
      List.Forall₂ (fun text ids => encode text special = .ok ids) texts rows := by
  refine ⟨fun h => mapM_eq_ok h, fun h => ?_⟩
  induction h with
  | nil => rfl
  | @cons text ids texts rows hids _ ih =>
      have hrest : (texts.mapM fun text => encode text special) = .ok rows := ih
      show ((text :: texts).mapM fun text => encode text special) = .ok (ids :: rows)
      rw [List.mapM_cons, hids, ok_bind, hrest]
      rfl

theorem rowwise_eq_error {τ : Type} {encode : τ → Bool → Except Failure (List ℕ)} {texts : List τ}
    {special : Bool} {failure : Failure}
    (h : (rowwise encode).encodeBatch texts special = .error failure) :
    ∃ text ∈ texts, encode text special = .error failure := by
  induction texts with
  | nil => cases h
  | cons text texts ih =>
      cases hfirst : encode text special with
      | error failure' =>
          have hmapM : ((text :: texts).mapM fun text => encode text special) = .error failure := h
          rw [List.mapM_cons, hfirst] at hmapM
          cases hmapM
          exact ⟨text, List.mem_cons_self, hfirst⟩
      | ok ids =>
          have hmapM : ((text :: texts).mapM fun text => encode text special) = .error failure := h
          rw [List.mapM_cons, hfirst, ok_bind] at hmapM
          cases hrest : (texts.mapM fun text => encode text special) with
          | error failure' =>
              rw [hrest] at hmapM
              cases hmapM
              obtain ⟨other, hother, herror⟩ := ih hrest
              exact ⟨other, List.mem_cons_of_mem _ hother, herror⟩
          | ok rows =>
              rw [hrest] at hmapM
              cases hmapM

/-- The bytes of a text as ids; a text with the byte `bad` is a fault. -/
def bytesUnless (bad : Option UInt8) (text : List UInt8) (_special : Bool) : Except Failure (List ℕ) :=
  if bad.any fun byte => text.contains byte then
    .error (.fault ⟨"BackendExecutionFault", "unsupported byte", none, ""⟩)
  else .ok (text.map UInt8.toNat)

/-- The byte at which an accelerated backend faults. -/
def badByte (backend : String) : Option UInt8 :=
  if backend = BACKEND_GPU then some 0 else if backend = BACKEND_FAST_CPU then some 1 else none

/-- A GPU from three bytes on, a CPU from one byte on, and the reference backend. -/
def tiered : RoutedExecutor (List UInt8) where
  plan := ⟨BACKEND_GPU, [BACKEND_GPU, BACKEND_FAST_CPU, BACKEND_REFERENCE], rfl, rfl, by decide⟩
  backends := fun backend => some (rowwise (bytesUnless (badByte backend)))
  addedRouter := none
  diagnostics := true
  minimumInputBytes := [(BACKEND_GPU, 3), (BACKEND_FAST_CPU, 1)]
  literals := .Disabled
  constructed := fun _ _ => rfl
  reference_zero := by decide
  literals_eq := rfl

theorem bytesUnless_error {bad : Option UInt8} {text : List UInt8} (special : Bool) {failure : Failure}
    (h : bytesUnless bad text special = .error failure) : ∃ exc, failure = .fault exc := by
  unfold bytesUnless at h
  split_ifs at h
  cases h
  exact ⟨_, rfl⟩

theorem tiered_exact : tiered.Exact where
  rows := by
    intro backend _ encoder hencoder texts special rows
    obtain rfl := Option.some.inj hencoder
    exact rowwise_eq_ok _ texts special rows
  encode_fault := by
    intro backend _ _ encoder hencoder text special failure hfailure
    obtain rfl := Option.some.inj hencoder
    exact bytesUnless_error special hfailure
  batch_fault := by
    intro backend _ _ encoder hencoder texts special failure hfailure
    obtain rfl := Option.some.inj hencoder
    obtain ⟨text, -, htext⟩ := rowwise_eq_error hfailure
    exact bytesUnless_error special htext
  answers := by
    rintro backend _ _ text special ids ⟨encoder, hencoder, hids⟩
    obtain rfl := Option.some.inj hencoder
    refine ⟨_, rfl, ?_⟩
    have hvalue : bytesUnless (badByte backend) text special = .ok ids := hids
    unfold bytesUnless at hvalue
    split_ifs at hvalue
    exact hvalue

/-- Three groups, one of which falls to the reference backend as a unit. -/
theorem encode_batch_rows_tiered :
    ∃ s', (@RoutedExecutor.encodeBatch _ tiered linear some [[], [2], [3, 4, 5], [0, 4, 5], [0, 1, 2]]
        true).run Ledger.empty = .ok [[], [2], [3, 4, 5], [0, 4, 5], [0, 1, 2]] s' ∧
      (tiered.chain.map s'.executionCounts).sum = 5 := by
  obtain ⟨hrows, hcounts⟩ := @RoutedExecutor.encode_batch_rows _ tiered linear some tiered_exact
  have hone : ∀ text : List UInt8, ∃ s', (@RoutedExecutor.encode _ tiered linear some text true).run
      Ledger.empty = .ok (text.map UInt8.toNat) s' :=
    fun text => (@RoutedExecutor.encode_eq_ok _ tiered linear some tiered_exact text true _ _).mpr
      ⟨_, rfl, rfl⟩
  obtain ⟨s', hrun⟩ := (hrows Ledger.empty Ledger.empty _ true _).mpr
    (.cons (hone []) (.cons (hone [2]) (.cons (hone [3, 4, 5]) (.cons (hone [0, 4, 5])
      (.cons (hone [0, 1, 2]) .nil)))))
  have hcall : ([Call.encodeBatch [[], [2], [3, 4, 5], [0, 4, 5], [0, 1, 2]] true].mapM
      (@RoutedExecutor.call _ linear tiered some)).run Ledger.empty =
        .ok [[[], [2], [3, 4, 5], [0, 4, 5], [0, 1, 2]]] s' := by
    rw [List.mapM_cons, EStateM.run_bind]
    unfold RoutedExecutor.call
    dsimp only
    rw [hrun]
    rfl
  obtain ⟨passages, -, -, -, -, -, hsum, -⟩ := hcounts _ _ s' hcall
  exact ⟨s', hrun, hsum⟩

end Toktier.Routing.Execute
