import Toktier.StoreCore.ChainReady
import Toktier.StoreCore.Isolation
import Toktier.StoreCore.SidecarCodec

/-!
# Sessions imported with their sidecar

An import copies the chain fields of a sidecar into the session. What it checks of them is that
they belong to the record; that they also fit the store, its block size and its nodes, is up to
the sidecar. This file says what a sidecar has to satisfy, and that it is then enough for every
append that follows.

## Main definitions

* `Session.ChainInv`: the chain fields of a session fit the store it is in.
* `SessionSidecar.Fits`, `SessionSidecar.Sound`: what a sidecar has to satisfy.
* `Call.FitsAt`: the appends to a session have an engine with its contract, and room.

## Main results

* `wp_appendPatch_ready`: an append to a ready session has no internal error.
* `sidecar_import_usable`: when an imported session is usable.
-/
namespace Toktier.StoreCore

open Toktier.Lib

/-- The chain stands at its root, or at a node of the table that ends there. -/
def ParentAt (nodes : Table BlockHash NodeEntry) (parent : Option BlockHash) (stop : ℕ) : Prop :=
  (stop = 0 ∧ parent = none) ∨
    ∃ key entry, parent = some key ∧ nodes.lookup key = some entry ∧ entry.record.endChar = stop

/-- The chain fields of a session fit its store: whole blocks, the text behind them, the node
they hang under. -/
structure Session.ChainInv (cfg : StoreConfig) (nodes : Table BlockHash NodeEntry)
    (s : Session) : Prop where
  aligned : cfg.blockChars ∣ s.blocksEnd
  below : s.blocksEnd ≤ s.totalChars
  pending : s.buf = (s.text.take s.safeChar).drop s.blocksEnd
  parent : ParentAt nodes s.chainTail s.blocksEnd

/-- The chain fields of a sidecar fit a store, over the text of its record. -/
structure SessionSidecar.Fits (cfg : StoreConfig) (nodes : Table BlockHash NodeEntry) (text : Text)
    (sc : SessionSidecar) : Prop where
  aligned : cfg.blockChars ∣ sc.blocksEnd
  pending : sc.buf = (text.take sc.safeChar).drop sc.blocksEnd
  parent : ParentAt nodes sc.chainTail sc.blocksEnd

/-- The counters of a sidecar are those of a session: the safe point ends the sealed text and is
at most a block past the hashed blocks, a character has four bytes at most, and no seal point
is past the sealed ids. -/
structure SessionSidecar.Sound (cfg : StoreConfig) (sealedText : Text)
    (sc : SessionSidecar) : Prop where
  safe : sealedText.length = sc.safeChar
  near : sc.safeChar ≤ sc.blocksEnd + cfg.blockChars
  bytes : sc.blocksEndByte ≤ 4 * sc.blocksEnd
  log : ∀ p ∈ sc.sealLog, p.2 ≤ sc.sealedCount

section Decide

variable {cfg : StoreConfig} {nodes : Table BlockHash NodeEntry} {text : Text} {sc : SessionSidecar}

theorem parentAt_iff {parent : Option BlockHash} {stop : ℕ} :
    ParentAt nodes parent stop ↔ (stop = 0 ∧ parent = none) ∨
      ((parent.bind nodes.lookup).any fun entry => entry.record.endChar = stop) = true := by
  unfold ParentAt
  cases parent with
  | none => simp
  | some key => cases hentry : nodes.lookup key <;> simp [hentry]

instance (parent : Option BlockHash) (stop : ℕ) : Decidable (ParentAt nodes parent stop) :=
  decidable_of_iff _ parentAt_iff.symm

theorem SessionSidecar.fits_iff : sc.Fits cfg nodes text ↔ cfg.blockChars ∣ sc.blocksEnd ∧
    sc.buf = (text.take sc.safeChar).drop sc.blocksEnd ∧ ParentAt nodes sc.chainTail sc.blocksEnd :=
  ⟨fun h => ⟨h.aligned, h.pending, h.parent⟩, fun h => ⟨h.1, h.2.1, h.2.2⟩⟩

instance : Decidable (sc.Fits cfg nodes text) := decidable_of_iff _ SessionSidecar.fits_iff.symm

theorem SessionSidecar.sound_iff : sc.Sound cfg text ↔ text.length = sc.safeChar ∧
    sc.safeChar ≤ sc.blocksEnd + cfg.blockChars ∧ sc.blocksEndByte ≤ 4 * sc.blocksEnd ∧
    ∀ p ∈ sc.sealLog, p.2 ≤ sc.sealedCount :=
  ⟨fun h => ⟨h.safe, h.near, h.bytes, h.log⟩, fun h => ⟨h.1, h.2.1, h.2.2.1, h.2.2.2⟩⟩

instance : Decidable (sc.Sound cfg text) := decidable_of_iff _ SessionSidecar.sound_iff.symm

end Decide

/-- The engine keeps its contract, and the bytes of the longer text can be counted. -/
def AppendFits (S : Store) (h : ℕ) (delta : Text) (eng : Engine) : Prop :=
  eng.Contract ∧ ∀ s, S.sessions.lookup h = some s → 4 * utf8Len (s.text ++ delta) < 2 ^ 64

/-- An append to session `h` has such an engine, and room; other calls are free. -/
def Call.FitsAt (h : ℕ) : Call → Store → Prop
  | .append handle delta _ eng, S => handle = h → AppendFits S h delta eng
  | .appendPatch handle delta _ eng, S => handle = h → AppendFits S h delta eng
  | _, _ => True

/-- A failure of `m` is not an internal error. -/
def NoInternal {α : Type} (m : Fallible Store StoreError α) (S : Store) : Prop :=
  ∀ e S', m.run S = .error e S' → e.isInternal = false

/-- The run ends in an internal error. -/
def endsInternal {α : Type} (m : Fallible Store StoreError α) (S : Store) : Bool :=
  match m.run S with
  | .ok _ _ => false
  | .error e _ => e.isInternal

theorem not_noInternal {α : Type} {m : Fallible Store StoreError α} {S : Store}
    (h : endsInternal m S = true) : ¬NoInternal m S := by
  intro hno
  unfold endsInternal at h
  split at h
  · cases h
  · rename_i e S' hrun
    rw [hno e S' hrun] at h
    cases h

/-- Session `h` is ready, if it is still there; its handle has been given out. -/
structure ReadyAt (cfg : StoreConfig) (h : ℕ) (S : Store) : Prop where
  cfg_eq : S.cfg = cfg
  used : h < S.nextHandle
  ready : ∀ s, S.sessions.lookup h = some s → s.Ready cfg

/-! ### Appends to a ready session -/

namespace Store

variable {S : Store} {h rev : ℕ} {delta : Text} {eng : Engine}

/-- What the gates of an append refuse is not an internal error. -/
theorem wp_appendGate_internal :
    wp (appendGate h rev eng) (fun _ _ => True) (fun e _ => e.isInternal = false) S := by
  unfold appendGate
  simp only [wp_bind, wp_session, wp_keyCtx, wp_throwIf, wp_runIf, wp_modify, wp_pure]
  exact ⟨fun s _ => ⟨fun key _ => ⟨fun _ => rfl, fun _ => ⟨fun _ => ⟨fun _ => rfl, fun _ => trivial⟩,
    fun _ => ⟨fun _ => rfl, fun _ => trivial⟩⟩⟩, fun _ => rfl⟩, fun _ => rfl⟩

variable [Digests]

theorem wp_appendPatch_ready (hr : ∀ s, S.sessions.lookup h = some s → s.Ready S.cfg)
    (hfits : AppendFits S h delta eng) :
    wp (appendPatch h delta rev eng)
      (fun _ S' => ∀ s, S'.sessions.lookup h = some s → s.Ready S.cfg)
      (fun e S' => e.isInternal = false ∧ ∀ s, S'.sessions.lookup h = some s → s.Ready S.cfg) S := by
  have hput (w : Work) (hw : w.sess.Ready S.cfg) :
      ∀ s, (S.tick.countExtend.putBack h w).sessions.lookup h = some s → s.Ready S.cfg := by
    intro s hs
    rw [lookup_putBack] at hs
    obtain rfl := Option.some.inj hs
    exact hw
  unfold appendPatch
  simp only [wp_bind]
  refine wp_mono (wp_and (wp_appendGate h rev eng) wp_appendGate_internal) (fun key S' hS' => ?_)
    fun e S' hS' => ⟨hS'.2, ?_⟩
  · obtain ⟨⟨rfl, s, hpass⟩, -⟩ := hS'
    simp only [wp_modify, wp_get, wp_onSession]
    refine ⟨fun s' hs' => ?_, fun _ => ⟨rfl, hr⟩⟩
    have hready : wp (appendSession S'.cfg key eng (S'.clock + 1) delta) _ _ _ :=
      wp_appendSession_ready (w := ⟨s', S'.nodes, S'.tick.countExtend.stats⟩) S'.blockChars_pos
        hfits.1 (S'.clock + 1) delta (hr s' hs') (hfits.2 s' hs')
    exact wp_mono hready (fun _ w hw => hput w hw) fun _ w hw => ⟨hw.1, hput w hw.2⟩
  · obtain ⟨rfl | rfl, -⟩ := hS'.1
    · exact hr
    · exact hr

/-- `append` fails where `appendPatch` does. -/
theorem noInternal_append (hp : NoInternal (appendPatch h delta rev eng) S) :
    NoInternal (append h delta rev eng) S := by
  intro e S' hrun
  cases hpatch : (appendPatch h delta rev eng).run S with
  | ok patch S₁ =>
    obtain ⟨-, s', -, hs', -⟩ := patchOk_of_ok S h delta rev eng hpatch
    rw [append_eq_of_ok S h delta rev eng hpatch hs'] at hrun
    cases hrun
  | error e₁ S₁ =>
    rw [append_eq_of_error S h delta rev eng hpatch] at hrun
    cases hrun
    exact hp _ _ hpatch

end Store

/-! ### Later calls -/

section Later

variable {cfg : StoreConfig} {h : ℕ} {S S' : Store} {c : Call}

/-- Stamps, rows and digests are no part of the chain. -/
theorem SameStream.ready {s s' : Session} (hs : SameStream s s') (hr : s.Ready cfg)
    (hcontent : ∀ d ∈ s'.content, d.Aligned) : s'.Ready cfg := by
  refine ⟨fun hok => ?_, hcontent⟩
  have hok' : s.chainOk = true := by
    rw [hs] at hok
    exact hok
  refine (hr.chain hok').of_chain ?_ ?_ ?_ ?_ ?_ ?_ ?_ ?_ <;> rw [hs]

/-- What the slot of a creation leaves of a session is ready. -/
theorem ReadyAt.opened (hS : ReadyAt cfg h S) {s : Session}
    (hs : (c.opened S).evictForCapacity.sessions.lookup h = some s) : s.Ready cfg := by
  have hlive := Store.lookup_of_evictForCapacity hs
  rcases opened_cases S c with ho | ⟨k, s₀, -, hs₀, ho⟩
  · rw [ho] at hlive
    exact hS.ready s hlive
  · rw [ho] at hlive
    by_cases heq : h = k
    · subst heq
      obtain rfl := Option.some.inj ((AList.lookup_insert _).symm.trans hlive)
      exact SameStream.ready rfl (hS.ready s₀ hs₀) (hS.ready s₀ hs₀).content
    · exact hS.ready s ((AList.lookup_insert_ne heq).symm.trans hlive)

/-- A call that neither appends to the session nor restores its digests keeps it ready. -/
theorem ReadyAt.move (hS : ReadyAt cfg h S) (hmove : TableMove c S S') (hwrites : ¬c.Writes h)
    (hrestore : ∀ text binding, c ≠ .restoreTracking h text binding) : ReadyAt cfg h S' := by
  have hcfg := hmove.cfg.trans hS.cfg_eq
  cases hmove.effect with
  | kept next table => exact ⟨hcfg, next ▸ hS.used, by rw [table]; exact hS.ready⟩
  | @changed k s₀ s₁ next found table own stamp row digest =>
    refine ⟨hcfg, next ▸ hS.used, fun s hs => ?_⟩
    rw [table] at hs
    by_cases heq : h = k
    · subst heq
      obtain rfl := Option.some.inj ((AList.lookup_insert _).symm.trans hs)
      have hready := hS.ready s₀ found
      refine (own.resolve_left hwrites).ready hready fun d hd => hready.content d ?_
      rcases digest with hw | ⟨text, binding, hc⟩ | hsame
      · exact absurd hw hwrites
      · exact absurd hc (hrestore text binding)
      · rwa [hsame] at hd
    · exact hS.ready s ((AList.lookup_insert_ne heq).symm.trans hs)
  | @dropped k next own table =>
    refine ⟨hcfg, next ▸ hS.used, fun s hs => ?_⟩
    rw [table] at hs
    exact hS.ready s (lookup_erase_eq_some.mp hs).2
  | slot next later own table =>
    exact ⟨hcfg, next ▸ hS.used, fun s hs => hS.opened (table ▸ hs)⟩
  | created next later own table stamp row =>
    refine ⟨hcfg, next ▸ Nat.lt_succ_of_lt hS.used, fun s hs => ?_⟩
    rw [table, AList.lookup_insert_ne hS.used.ne] at hs
    exact hS.opened hs

variable [Digests]

/-- Restored digests are those of a text. -/
theorem ReadyAt.restoreTracking (hS : ReadyAt cfg h S) (text : Text) (binding : List UInt8) :
    ReadyAt cfg h (S.after (.restoreTracking h text binding)) := by
  apply Store.after_of_wp
  simp only [Call.run, Store.restoreTrackingWithBinding, wp_bind, Store.wp_session, wp_fromExcept,
    wp_modify]
  refine ⟨fun s hs => ⟨?_, fun _ _ => hS⟩, fun _ => hS⟩
  rintro ⟨recovery, content⟩ htracking
  refine ⟨hS.cfg_eq, hS.used, fun s' hs' => ?_⟩
  obtain rfl := Option.some.inj ((AList.lookup_insert _).symm.trans hs')
  refine SameStream.ready rfl (hS.ready s hs) fun d hd => ?_
  -- the content digest was scanned from the presented text
  unfold Session.verifiedTracking at htracking
  obtain ⟨b, -, htracking⟩ := bind_eq_ok.mp htracking
  obtain ⟨r, -, htracking⟩ := bind_eq_ok.mp htracking
  obtain ⟨d', hd', htracking⟩ := bind_eq_ok.mp htracking
  dsimp only at hd htracking
  split_ifs at htracking hd
  · cases htracking
    cases hd
    exact ContentDigest.aligned_of_fromBytes hd'
  · cases hd

theorem ReadyAt.appendPatch (hS : ReadyAt cfg h S) {delta : Text} {rev : ℕ} {eng : Engine}
    (hfits : AppendFits S h delta eng) :
    wp (Store.appendPatch h delta rev eng) (fun _ S' => ReadyAt cfg h S')
      (fun e S' => e.isInternal = false ∧ ReadyAt cfg h S') S := by
  have hready : wp (Store.appendPatch h delta rev eng) _ _ S :=
    Store.wp_appendPatch_ready (by rw [hS.cfg_eq]; exact hS.ready) hfits
  have hmoved (S' : Store) (hmove : TableMove (.appendPatch h delta rev eng) S S')
      (hlive : ∀ s, S'.sessions.lookup h = some s → s.Ready S.cfg) : ReadyAt cfg h S' := by
    refine ⟨hmove.cfg.trans hS.cfg_eq, ?_, by rwa [hS.cfg_eq] at hlive⟩
    cases hmove.effect with
    | kept next => exact next ▸ hS.used
    | changed next => exact next ▸ hS.used
    | dropped next => exact next ▸ hS.used
    | slot next => exact next ▸ hS.used
    | created next => exact next ▸ Nat.lt_succ_of_lt hS.used
  have htable := Store.wp_appendPatch_table (S := S) h delta rev eng
    (c := .appendPatch h delta rev eng) rfl
  exact wp_mono (wp_and hready htable)
    (fun _ S' hw => hmoved S' hw.2 hw.1) fun _ S' hw => ⟨hw.1.1, hmoved S' hw.2 hw.1.2⟩

theorem ReadyAt.append (hS : ReadyAt cfg h S) {delta : Text} {rev : ℕ} {eng : Engine}
    (hfits : AppendFits S h delta eng) : ReadyAt cfg h (S.after (.append h delta rev eng)) := by
  apply Store.after_of_wp
  rw [Call.run, wp_ignore, Store.append, wp_bind]
  refine wp_mono (hS.appendPatch hfits) (fun _ S' hS' => ?_) fun _ S' hS' => hS'.2
  simp only [wp_bind, Store.wp_session, wp_pure]
  exact ⟨fun _ _ => hS', fun _ => hS'⟩

/-- A call keeps session `h` ready. -/
theorem ReadyAt.after (hS : ReadyAt cfg h S) (hc : c.FitsAt h S) : ReadyAt cfg h (S.after c) := by
  have hmove := tableMove_after S c
  by_cases hwrites : c.Writes h
  · cases c with
    | append handle delta rev eng =>
      obtain rfl : h = handle := hwrites
      exact hS.append (hc rfl)
    | appendPatch handle delta rev eng =>
      obtain rfl : h = handle := hwrites
      apply Store.after_of_wp
      rw [Call.run, wp_ignore]
      exact wp_mono (hS.appendPatch (hc rfl)) (fun _ _ hS' => hS') fun _ _ hS' => hS'.2
    | _ => exact hwrites.elim
  · by_cases hrestore : ∃ text binding, c = .restoreTracking h text binding
    · obtain ⟨text, binding, rfl⟩ := hrestore
      exact hS.restoreTracking text binding
    · exact hS.move hmove hwrites fun text binding hc => hrestore ⟨text, binding, hc⟩

/-- In every later store the session is ready, and an append to it has no internal error. -/
theorem ReadyAt.noInternal_afterAll (hS : ReadyAt cfg h S) {calls : List Call}
    (hcalls : Along (Call.FitsAt h) calls S) {delta : Text} {rev : ℕ} {eng : Engine}
    (hfits : AppendFits (S.afterAll calls) h delta eng) :
    NoInternal (Store.appendPatch h delta rev eng) (S.afterAll calls) ∧
      NoInternal (Store.append h delta rev eng) (S.afterAll calls) := by
  have hlater : ReadyAt cfg h (S.afterAll calls) :=
    afterAll_induction (fun hI hc => ReadyAt.after hI hc) hS hcalls
  have hpatch : NoInternal (Store.appendPatch h delta rev eng) (S.afterAll calls) :=
    fun e S' hrun => ((hlater.appendPatch hfits).of_error hrun).1
  exact ⟨hpatch, Store.noInternal_append hpatch⟩

end Later

/-! ### The import -/

section Import

variable [Digests] {S S₁ : Store} {keyId h : ℕ} {recBytes sidecarBytes : List UInt8} {eng : Engine}
  {sealedText : Text}

/-- What an accepted import has read, and the session it put under a new handle. -/
structure ImportedAs (S S₁ : Store) (keyId h : ℕ) (recBytes sidecarBytes : List UInt8)
    (sealedText : Text) (parsed : SessionRecordV1) (sc : SessionSidecar) (s : Session) : Prop where
  record : SessionRecordV1.fromBytes recBytes = .ok parsed
  sidecar : SessionSidecar.fromBytes sidecarBytes = .ok sc
  cfg_eq : S₁.cfg = S.cfg
  nodes_eq : S₁.nodes = S.nodes
  used : h < S₁.nextHandle
  live : S₁.sessions.lookup h = some s
  built : ∃ sealedCount tail recovery content clock,
    s = sidecarSession keyId parsed sc sealedCount tail clock recovery content sealedText ∧
      tail.text = parsed.tailText ∧ sealedCount + tail.nTokens = parsed.ids.length ∧
      Store.SidecarBinds sc parsed sealedCount tail ∧ S.trackUnsealed parsed = .ok (recovery, content)

theorem Store.exists_importedAs
    (hrun : (importSessionWithSidecar keyId recBytes sidecarBytes eng sealedText).run S =
      .ok h S₁) :
    ∃ parsed sc s, ImportedAs S S₁ keyId h recBytes sidecarBytes sealedText parsed sc s := by
  suffices hwp : wp (importSessionWithSidecar keyId recBytes sidecarBytes eng sealedText)
      (fun h S₁ => ∃ parsed sc s,
        ImportedAs S S₁ keyId h recBytes sidecarBytes sealedText parsed sc s)
      (fun _ _ => True) S from hwp.of_ok hrun
  unfold importSessionWithSidecar
  simp only [wp_bind, wp_keyCtx]
  refine ⟨fun key _ => ?_, fun _ => trivial⟩
  refine wp_mono (wp_importRecordGates key recBytes eng) ?_ fun _ _ _ => trivial
  rintro ⟨parsed, sealedCount, tail⟩ S' ⟨rfl, hgates⟩
  simp only [wp_get, wp_fromExcept, wp_modify, wp_rejectUnless, wp_counted, wp_insertSession,
    implies_true, and_true]
  intro sc hsc hbinds digests htrack
  obtain ⟨enc, -, hfill⟩ := hgates.encoded
  refine ⟨parsed, sc, _, ⟨hgates.decoded, hsc, cfg_evictForCapacity _, nodes_evictForCapacity _,
    Nat.lt_succ_self _, AList.lookup_insert _, sealedCount, tail, digests.1, digests.2, _, rfl,
    (TailState.fill_ok hfill).1, hgates.count, hbinds, htrack⟩⟩

/-- The digest of an imported session is that of a text. -/
theorem aligned_of_trackUnsealed {parsed : SessionRecordV1} {recovery : Option RecoveryDigest}
    {content : Option ContentDigest} (h : S.trackUnsealed parsed = .ok (recovery, content)) :
    ∀ d ∈ content, d.Aligned := by
  intro d hd
  unfold Store.trackUnsealed trackText at h
  obtain ⟨r, -, h⟩ := bind_eq_ok.mp h
  obtain ⟨d', hd', h⟩ := bind_eq_ok.mp h
  cases h
  unfold optionally at hd'
  split_ifs at hd'
  · cases hscan : ContentDigest.fromBytes (utf8 parsed.tailText) with
    | error e =>
      rw [hscan] at hd'
      cases hd'
    | ok d₀ =>
      rw [hscan] at hd'
      cases hd'
      obtain rfl := Option.mem_some_iff.mp hd
      exact ContentDigest.aligned_of_fromBytes hscan
  · cases hd'
    cases hd

section Imported

variable {parsed : SessionRecordV1} {sc : SessionSidecar} {s : Session}

/-- The chain fields of the session are those of the sidecar. -/
theorem ImportedAs.chainInv_iff
    (hs : ImportedAs S S₁ keyId h recBytes sidecarBytes sealedText parsed sc s) :
    (s.chainOk = true → s.ChainInv S₁.cfg S₁.nodes) ↔
      (sc.chainOk = true → sc.Fits S.cfg S.nodes (sealedText ++ parsed.tailText)) := by
  obtain ⟨sealedCount, tail, recovery, content, clock, rfl, htail, -, -, -⟩ := hs.built
  have htext : (sidecarSession keyId parsed sc sealedCount tail clock recovery content
      sealedText).text = sealedText ++ parsed.tailText := by
    rw [← htail]
    rfl
  rw [hs.cfg_eq, hs.nodes_eq]
  refine ⟨fun hinv hok => ?_, fun hfits hok => ?_⟩
  · obtain ⟨haligned, -, hpending, hparent⟩ := hinv hok
    rw [htext] at hpending
    exact ⟨haligned, hpending, hparent⟩
  · obtain ⟨haligned, hpending, hparent⟩ := hfits hok
    refine ⟨haligned, (SessionSidecar.fromBytes_eq_ok.mp hs.sidecar).1.blocksEnd_le, ?_, hparent⟩
    rw [htext]
    exact hpending

/-- A session of a sidecar that fits and is sound is ready. -/
theorem ImportedAs.readyAt
    (hs : ImportedAs S S₁ keyId h recBytes sidecarBytes sealedText parsed sc s)
    (hsc : sc.chainOk = true →
      sc.Fits S.cfg S.nodes (sealedText ++ parsed.tailText) ∧ sc.Sound S.cfg sealedText) :
    ReadyAt S₁.cfg h S₁ := by
  refine ⟨rfl, hs.used, fun s' hs' => ?_⟩
  obtain rfl := Option.some.inj (hs.live.symm.trans hs')
  obtain ⟨sealedCount, tail, recovery, content, clock, rfl, -, hcount, hbinds, htrack⟩ := hs.built
  refine ⟨fun hok => ?_, aligned_of_trackUnsealed htrack⟩
  obtain ⟨hfits, hsound⟩ := hsc hok
  have hsealed : (SealedIds.fromVec (parsed.ids.take sealedCount)).len = sealedCount := by
    rw [← SealedIds.length_ids, SealedIds.ids_fromVec, List.length_take]
    omega
  have hbegins : (sealedText ++ parsed.tailText).take sc.safeChar = sealedText := by
    rw [← hsound.safe, List.take_left]
  exact
    { safe := hsound.safe
      pending := hbegins ▸ hfits.pending
      bytes := hsound.bytes
      near := hs.cfg_eq ▸ hsound.near
      base := hbinds.2.2.2.2.trans hsealed.ge
      log := fun p hp => (hsound.log p hp).trans (hbinds.2.1.trans hsealed.symm).le }

end Imported

/-- **When an imported session is usable**: its chain fields fit the store exactly when those of
the sidecar do, and if the counters of the sidecar are sound as well, no later append with a
contract engine has an internal error. -/
theorem sidecar_import_usable
    (hrun : (Store.importSessionWithSidecar keyId recBytes sidecarBytes eng sealedText).run S =
      .ok h S₁) :
    ∃ parsed sc s, SessionRecordV1.fromBytes recBytes = .ok parsed ∧
      SessionSidecar.fromBytes sidecarBytes = .ok sc ∧ S₁.sessions.lookup h = some s ∧
      ((s.chainOk = true → s.ChainInv S₁.cfg S₁.nodes) ↔
        (sc.chainOk = true → sc.Fits S.cfg S.nodes (sealedText ++ parsed.tailText))) ∧
      ((sc.chainOk = true → sc.Fits S.cfg S.nodes (sealedText ++ parsed.tailText) ∧
          sc.Sound S.cfg sealedText) →
        ∀ calls delta rev eng', Along (Call.FitsAt h) calls S₁ →
          AppendFits (S₁.afterAll calls) h delta eng' →
          NoInternal (Store.appendPatch h delta rev eng') (S₁.afterAll calls) ∧
            NoInternal (Store.append h delta rev eng') (S₁.afterAll calls)) := by
  obtain ⟨parsed, sc, s, hs⟩ := Store.exists_importedAs hrun
  refine ⟨parsed, sc, s, hs.record, hs.sidecar, hs.live, hs.chainInv_iff, ?_⟩
  exact fun hsc calls delta rev eng' hcalls hfits => (hs.readyAt hsc).noInternal_afterAll hcalls hfits

end Import

/-! ### Two stores -/

/-- Blocks of five characters; every append tries to seal. -/
def fiveConfig : StoreConfig := ⟨5, 0, 1048576, 65536, 2⟩

/-- An encoder without certificates never names a cut. -/
def quietEngine : Engine := { unitEngine with lastCertifiedBoundary := fun _ _ _ => .ok none }

theorem contract_quietEngine : quietEngine.Contract := by
  intro tail floor ceil cut h
  cases h

/-- A session with one hashed block and three sealed characters behind it, exported. -/
def exportNine : Fallible Store StoreError (List UInt8 × List UInt8) := do
  let keyId ← Store.registerFingerprint ZERO_HASH 1
  let out ← Store.put keyId "abcdefghi".toList unitEngine
  let record ← Store.exportSession out.handle
  let sidecar ← Store.exportSessionSidecar out.handle
  return (record, sidecar)

/-- Imported into the store it comes from, the session is usable. -/
theorem sidecar_import_usable_same :
    ∃ S S₁ record sidecar h, S.cfg = fiveConfig ∧
      (Store.importSessionWithSidecar 0 record sidecar quietEngine "abcdefgh".toList).run S =
        .ok h S₁ ∧
      NoInternal (Store.appendPatch h ['j'] 0 quietEngine) S₁ := by
  obtain ⟨S₀, hnew⟩ : ∃ S₀, Store.new fiveConfig = .ok S₀ := ⟨_, rfl⟩
  have hexport : returnsSuch exportNine (fun files S => returnsSuch
      (Store.importSessionWithSidecar 0 files.1 files.2 quietEngine "abcdefgh".toList)
      (fun h S₁ => decide (S.cfg = fiveConfig ∧
        (∀ sc ∈ (SessionSidecar.fromBytes files.2).toOption,
          sc.Fits S.cfg S.nodes "abcdefghi".toList ∧ sc.Sound S.cfg "abcdefgh".toList) ∧
        (∀ parsed ∈ (SessionRecordV1.fromBytes files.1).toOption, parsed.tailText = ['i']) ∧
        ∀ s ∈ S₁.sessions.lookup h, 4 * utf8Len (s.text ++ ['j']) < 2 ^ 64)) S) S₀ = true := by
    cases hnew
    decide +kernel
  obtain ⟨⟨record, sidecar⟩, S, -, himport⟩ := exists_of_returnsSuch hexport
  obtain ⟨h, S₁, hrun, hfacts⟩ := exists_of_returnsSuch himport
  obtain ⟨hcfg, hsc, htail, hroom⟩ := of_decide_eq_true hfacts
  refine ⟨S, S₁, record, sidecar, h, hcfg, hrun, ?_⟩
  obtain ⟨parsed, sc, s, hparsed, hread, -, -, hlater⟩ := sidecar_import_usable hrun
  have htext : parsed.tailText = ['i'] := htail parsed (by rw [hparsed]; rfl)
  have hfits := hsc sc (by rw [hread]; rfl)
  refine (hlater (fun _ => ?_) [] ['j'] 0 quietEngine trivial ⟨contract_quietEngine, hroom⟩).1
  rw [htext]
  exact hfits

/-- Imported into a store with blocks of two characters, its chain fields do not fit, and the
next append ends in an internal error. -/
theorem sidecar_import_unusable :
    ∃ S₀ S T₀ T T₁ record sidecar h s, Store.new fiveConfig = .ok S₀ ∧
      exportNine.run S₀ = .ok (record, sidecar) S ∧
      Store.new { fiveConfig with blockChars := 2 } = .ok T₀ ∧
      (Store.registerFingerprint ZERO_HASH 1).run T₀ = .ok 0 T ∧
      (Store.importSessionWithSidecar 0 record sidecar quietEngine "abcdefgh".toList).run T =
        .ok h T₁ ∧
      T₁.sessions.lookup h = some s ∧ s.chainOk = true ∧ ¬s.ChainInv T₁.cfg T₁.nodes ∧
      AppendFits T₁ h ['j'] quietEngine ∧
      ¬NoInternal (Store.appendPatch h ['j'] 0 quietEngine) T₁ := by
  obtain ⟨S₀, hnew⟩ : ∃ S₀, Store.new fiveConfig = .ok S₀ := ⟨_, rfl⟩
  obtain ⟨T₀, hnew'⟩ : ∃ T₀, Store.new { fiveConfig with blockChars := 2 } = .ok T₀ := ⟨_, rfl⟩
  obtain ⟨T, hregister⟩ : ∃ T, (Store.registerFingerprint ZERO_HASH 1).run T₀ = .ok 0 T := by
    cases hnew'
    exact ⟨_, rfl⟩
  have hexport : returnsSuch exportNine (fun files _ => returnsSuch
      (Store.registerFingerprint ZERO_HASH 1 >>= fun keyId =>
        Store.importSessionWithSidecar keyId files.1 files.2 quietEngine "abcdefgh".toList)
      (fun h T₁ => endsInternal (Store.appendPatch h ['j'] 0 quietEngine) T₁ &&
        (T₁.sessions.lookup h).any fun s => decide (s.chainOk = true ∧
          ¬T₁.cfg.blockChars ∣ s.blocksEnd ∧ 4 * utf8Len (s.text ++ ['j']) < 2 ^ 64)) T₀)
      S₀ = true := by
    cases hnew
    cases hnew'
    decide +kernel
  obtain ⟨⟨record, sidecar⟩, S, hfiles, himport⟩ := exists_of_returnsSuch hexport
  obtain ⟨h, T₁, hboth, hfacts⟩ := exists_of_returnsSuch himport
  obtain ⟨keyId, T', hregister', hrun⟩ := run_bind_eq_ok hboth
  cases hregister.symm.trans hregister'
  obtain ⟨hends, hsession⟩ := Bool.and_eq_true_iff.mp hfacts
  obtain ⟨s, hs, hfields⟩ := (Option.any_eq_true _ _).mp hsession
  obtain ⟨hok, hblocks, hroom⟩ := of_decide_eq_true hfields
  refine ⟨S₀, S, T₀, T, T₁, record, sidecar, h, s, hnew, hfiles, hnew', hregister, hrun, hs, hok,
    fun hinv => hblocks hinv.aligned, ⟨contract_quietEngine, fun s' hs' => ?_⟩, not_noInternal hends⟩
  obtain rfl := Option.some.inj (hs.symm.trans hs')
  exact hroom

end Toktier.StoreCore
