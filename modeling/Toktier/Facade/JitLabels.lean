import Toktier.Facade.Jit
import Toktier.Lib.Decode

/-!
# Labels of compiled products

The label of a product that comes from the cache is the one an earlier call has written. The cache
key says whether a binding is certified, but not which of the two other labels it has: so a call
that is experimental on its own axes gets the label of a coverage gap where an earlier call found
one. This is the only way a label becomes stronger.

## Main definitions

* `WrittenBy`: what the entries of a cache have in common.
* `StaleHit`: an experimental call finds a product that was only unjudged when it was built.

## Main results

* `returned_of_compileProduct`: where a product comes from.
* `jit_labels_sound_iff`: labels are no stronger than the call's own exactly without a stale hit.
-/
namespace Toktier.Facade.Jit

open Toktier.Lib

/-- The order of the labels. -/
def JitAssurance.rank : JitAssurance → ℕ
  | .Experimental => 0
  | .Unjudged => 1
  | .Certified => 2

/-! ### Admitted calls -/

section Admitted

variable {c : CompileCall} {a : Admission}

theorem CompileCall.admit_ok (h : c.admit = .ok a) :
    ∃ device compiler support jit, a = c.admission device compiler support jit := by
  unfold CompileCall.admit at h
  obtain ⟨device, -, h⟩ := bind_eq_ok.mp h
  obtain ⟨compiler, -, h⟩ := bind_eq_ok.mp h
  obtain ⟨support, -, h⟩ := bind_eq_ok.mp h
  obtain ⟨jit, -, h⟩ := bind_eq_ok.mp h
  obtain ⟨-, -, h⟩ := bind_eq_ok.mp h
  cases h
  exact ⟨device, compiler, support, jit, rfl⟩

/-- The binding says whether the call is certified, and no more of its label. -/
theorem CompileCall.certified_iff (h : c.admit = .ok a) :
    a.binding.certified = true ↔ a.assurance = .Certified := by
  obtain ⟨device, compiler, support, jit, rfl⟩ := CompileCall.admit_ok h
  exact JitAxes.certified_iff _ _

/-- A manifest states the binding of the call that wrote it. -/
theorem CompileCall.binding_manifest (h : c.admit = .ok a) (image : List UInt8) :
    (c.manifest a image).binding = a.binding := by
  obtain ⟨device, compiler, support, jit, rfl⟩ := CompileCall.admit_ok h
  rfl

theorem CompileCall.bindingDigest_manifest (c : CompileCall) (a : Admission) (image : List UInt8) :
    (c.manifest a image).bindingDigest = bindingDigest a.binding := rfl

theorem CompileCall.verify_manifest (h : c.admit = .ok a) (image : List UInt8) :
    verifyManifest ⟨c.manifest a image, image⟩ (bindingDigest a.binding) = .ok () := by
  unfold verifyManifest
  dsimp only
  rw [CompileCall.binding_manifest h image, if_neg (by simp [CompileCall.manifest]),
    if_neg (by simp [CompileCall.manifest])]

/-- Manifests of one binding are the request's own. -/
theorem CompileCall.matches_of_binding {c' : CompileCall} {a' : Admission} (h : c.admit = .ok a)
    (h' : c'.admit = .ok a') (hbinding : a'.binding = a.binding) (image : List UInt8) :
    a.matchesManifest (c'.manifest a' image) := by
  obtain ⟨device, compiler, support, jit, rfl⟩ := CompileCall.admit_ok h
  obtain ⟨device', compiler', support', jit', rfl⟩ := CompileCall.admit_ok h'
  exact ⟨congrArg BindingInput.family hbinding, congrArg BindingInput.architecture hbinding,
    congrArg BindingInput.driverApiVersion hbinding, congrArg BindingInput.compilerSha256 hbinding,
    congrArg BindingInput.compilerPath hbinding⟩

end Admitted

/-! ### Entries of a cache -/

/-- The entry is what the call has published. -/
def WrittenBy (entry : CacheEntry) (c : CompileCall) (a : Admission) : Prop :=
  c.admit = .ok a ∧ ∃ image, entry = ⟨c.manifest a image, image⟩

/-- Every entry was published by one of the calls. -/
def CacheOk (calls : List CompileCall) (cache : Cache) : Prop :=
  ∀ name entry, cache.lookup name = some entry → ∃ c ∈ calls, ∃ a, WrittenBy entry c a

/-- The bindings of the calls have different digests. -/
def NoCollision (calls : List CompileCall) : Prop :=
  ∀ c ∈ calls, ∀ c' ∈ calls, ∀ a a', c.admit = .ok a → c'.admit = .ok a' →
    bindingDigest a.binding = bindingDigest a'.binding → a.binding = a'.binding

section Entries

variable {calls : List CompileCall} {cache : Cache} {c : CompileCall} {a : Admission}
  {entry : CacheEntry}

theorem CacheOk.erase (h : CacheOk calls cache) (name : Text) : CacheOk calls (cache.erase name) := by
  intro name' entry hentry
  exact h name' entry (lookup_erase_eq_some.mp hentry).2

theorem CacheOk.insert (h : CacheOk calls cache) (hc : c ∈ calls) (hwritten : WrittenBy entry c a)
    (name : Text) : CacheOk calls (cache.insert name entry) := by
  intro name' entry' hentry
  rcases lookup_insert_eq_some.mp hentry with ⟨-, rfl⟩ | ⟨-, hold⟩
  · exact ⟨c, hc, a, hwritten⟩
  · exact h name' entry' hold

/-- What a read has found and checked. -/
theorem readCached_ok {maxProductBytes : ℕ} {readable : Bool} {p : JitProduct}
    (h : readCached maxProductBytes readable a cache = .ok p) :
    ∃ entry, cache.lookup (directoryName (bindingDigest a.binding)) = some entry ∧
      verifyManifest entry (bindingDigest a.binding) = .ok () ∧ readable = true ∧
      entry.product.length ≤ maxProductBytes ∧ p = a.cachedProduct entry := by
  unfold readCached at h
  cases hlookup : cache.lookup (directoryName (bindingDigest a.binding)) with
  | none =>
    rw [hlookup] at h
    cases h
  | some entry =>
    rw [hlookup] at h
    dsimp only at h
    by_cases hreadable : readable = false
    · rw [if_pos hreadable] at h
      cases h
    rw [if_neg hreadable] at h
    obtain ⟨u, hverify, h⟩ := bind_eq_ok.mp h
    split_ifs at h with hmatch hlen
    cases h
    exact ⟨entry, rfl, hverify, by simpa using hreadable, not_lt.mp hlen, rfl⟩

theorem verifyManifest_digest {digest : Text} (h : verifyManifest entry digest = .ok ()) :
    entry.manifest.bindingDigest = digest ∧ bindingDigest entry.manifest.binding = digest := by
  unfold verifyManifest at h
  dsimp only at h
  split_ifs at h with hshape
  simp only [not_or, not_not] at hshape
  exact ⟨hshape.2.1, hshape.2.2.1⟩

end Entries

/-! ### One call -/

/-- Where a product of a call comes from: the cache, or a build of its own. -/
inductive Returned (cache : Cache) (c : CompileCall) (a : Admission) : JitProduct → Prop
  | hit {entry : CacheEntry} (prepared : c.answers.prepared = true) (found : readCached c.maxProductBytes c.answers.readable a cache =
      .ok (a.cachedProduct entry))
      (entry_eq : cache.lookup (directoryName (bindingDigest a.binding)) = some entry) :
      Returned cache c a (a.cachedProduct entry)
  | fresh {p : JitProduct}
      (label : p.assurance = a.assurance) (word : p.facts.assurance = assuranceWord a.assurance)
      (certified : p.facts.certified = a.binding.certified) : Returned cache c a p

section OneCall

variable {calls : List CompileCall} {cache : Cache} {c : CompileCall} {a : Admission}

theorem wp_buildUncached (h : c.admit = .ok a) (hcache : CacheOk calls cache) (hc : c ∈ calls)
    {before : Cache} :
    wp (c.buildUncached a) (fun p cache' => CacheOk calls cache' ∧ Returned before c a p)
      (fun _ cache' => CacheOk calls cache') cache := by
  unfold CompileCall.buildUncached
  simp only [wp_bind, wp_fromExcept, wp_throwIf, wp_modify, wp_get, wp_pure]
  refine ⟨fun image _ => ⟨fun _ => hcache, fun _ => ⟨fun _ _ => ⟨fun _ => hcache, fun _ => ?_⟩,
    fun _ _ => hcache⟩⟩, fun _ _ => hcache⟩
  have hinsert : CacheOk calls (cache.insert (directoryName (bindingDigest a.binding))
      ⟨c.manifest a image, image⟩) := hcache.insert hc ⟨h, image, rfl⟩ _
  refine ⟨fun _ => hinsert, fun _ => ⟨fun p hread => ⟨hinsert, ?_⟩, fun _ _ => hinsert⟩⟩
  -- what is read back is what was written
  obtain ⟨entry, hlookup, -, -, -, rfl⟩ := readCached_ok hread
  obtain rfl := Option.some.inj ((AList.lookup_insert _).symm.trans hlookup)
  exact .fresh (assuranceFromWord_word a.assurance) rfl rfl

theorem wp_fromCache (h : c.admit = .ok a) (hcache : CacheOk calls cache) (hc : c ∈ calls) :
    wp (c.fromCache a) (fun p cache' => CacheOk calls cache' ∧ Returned cache c a p)
      (fun _ cache' => CacheOk calls cache') cache := by
  unfold CompileCall.fromCache
  simp only [wp_bind, wp_throwIf, wp_get]
  refine ⟨fun _ => hcache, fun hprepared => ?_⟩
  cases hread : readCached c.maxProductBytes c.answers.readable a cache with
  | ok p =>
    obtain ⟨entry, hentry, -, -, -, rfl⟩ := readCached_ok hread
    exact ⟨hcache, .hit (by simpa using hprepared) hread hentry⟩
  | error e =>
    dsimp only
    split_ifs
    · simp only [wp_bind, wp_throwIf, wp_set]
      exact ⟨fun _ => hcache, fun _ => wp_buildUncached h (hcache.erase _) hc⟩
    · exact wp_buildUncached h hcache hc

/-- A call publishes nothing but its own entry; what it returns is from the cache or its own. -/
theorem wp_compileProduct (hcache : CacheOk calls cache) (hc : c ∈ calls) :
    wp (compileProduct c)
      (fun p cache' => CacheOk calls cache' ∧ ∃ a, c.admit = .ok a ∧ Returned cache c a p)
      (fun _ cache' => CacheOk calls cache') cache := by
  unfold compileProduct
  simp only [wp_bind, wp_fromExcept]
  refine ⟨fun a ha => ?_, fun _ _ => hcache⟩
  exact wp_mono (wp_fromCache ha hcache hc) (fun p cache' hp => ⟨hp.1, a, ha, hp.2⟩) fun _ _ he => he

/-- A call that is refused returns no product, and leaves the cache alone. -/
theorem compileProduct_refused {e : JitError} (h : c.admit = .error e) :
    (compileProduct c).run cache = .error e cache := by
  unfold compileProduct
  rw [h]
  rfl

end OneCall

/-! ### Runs -/

theorem CacheOk.after {calls : List CompileCall} {cache : Cache} {c : CompileCall}
    (hcache : CacheOk calls cache) (hc : c ∈ calls) : CacheOk calls (cache.after c) := by
  have hwp := wp_compileProduct hcache hc
  unfold Cache.after
  cases hrun : (compileProduct c).run cache with
  | ok p cache' => exact (hwp.of_ok hrun).1
  | error e cache' => exact hwp.of_error hrun

theorem cacheOk_afterAll {calls : List CompileCall} {cache : Cache} (hcache : CacheOk calls cache)
    {more : List CompileCall} (hsub : more ⊆ calls) : CacheOk calls (cache.afterAll more) := by
  induction more generalizing cache with
  | nil => exact hcache
  | cons c more ih =>
    obtain ⟨hc, hmore⟩ := List.cons_subset.mp hsub
    exact ih (hcache.after hc) hmore

theorem cacheOk_empty (calls : List CompileCall) : CacheOk calls ∅ := fun name entry hentry => by
  cases hentry

/-- A call that finds nothing, and for which everything goes well, publishes its product. -/
theorem Cache.after_fresh {cache : Cache} {c : CompileCall} {a : Admission} {image : List UInt8}
    (h : c.admit = .ok a) (hnone : cache.lookup (directoryName (bindingDigest a.binding)) = none)
    (hanswers : c.answers = ⟨true, true, true, some image, true, true, true⟩) (hne : image ≠ [])
    (hlen : image.length ≤ c.maxProductBytes) :
    cache.after c =
      cache.insert (directoryName (bindingDigest a.binding)) ⟨c.manifest a image, image⟩ := by
  have hread : readCached c.maxProductBytes c.answers.readable a cache = .error .Environment := by
    unfold readCached
    rw [hnone]
  have hrun : wp (compileProduct c) (fun _ cache' => cache' =
      cache.insert (directoryName (bindingDigest a.binding)) ⟨c.manifest a image, image⟩)
      (fun _ cache' => cache' =
        cache.insert (directoryName (bindingDigest a.binding)) ⟨c.manifest a image, image⟩)
      cache := by
    unfold compileProduct CompileCall.fromCache CompileCall.buildUncached
    simp only [wp_bind, wp_fromExcept, wp_throwIf, wp_get]
    refine ⟨fun a' h' => ?_, fun e he => by cases h.symm.trans he⟩
    obtain rfl := Except.ok.inj (h.symm.trans h')
    refine ⟨fun hprepared => by simp [hanswers] at hprepared, fun _ => ?_⟩
    rw [hread, hnone]
    simp [hanswers, wp_bind, hne, hlen, CompileCall.verify_manifest h]
  unfold Cache.after
  cases heq : (compileProduct c).run cache with
  | ok p cache' => exact hrun.of_ok heq
  | error e cache' => exact hrun.of_error heq

/-! ### Labels -/

/-- The call is experimental on its own axes, and the cache has a product of its binding that it
can read and that was merely unjudged when it was built. -/
def StaleHit (cache : Cache) (c : CompileCall) : Prop :=
  ∃ a entry, c.admit = .ok a ∧ a.assurance = .Experimental ∧ c.answers.prepared = true ∧
    cache.lookup (directoryName (bindingDigest a.binding)) = some entry ∧
    entry.manifest.bindingDigest = bindingDigest a.binding ∧
    entry.manifest.assurance = "supported_untested" ∧ c.answers.readable = true ∧
    entry.product.length ≤ c.maxProductBytes

section Labels

variable {calls : List CompileCall} {cache : Cache} {c : CompileCall} {a : Admission}
  {p : JitProduct}

/-- An entry with the digest of a binding was written under that binding. -/
theorem CacheOk.written (hcache : CacheOk calls cache) (hcol : NoCollision calls) (hc : c ∈ calls)
    (h : c.admit = .ok a) {name : Text} {entry : CacheEntry} (hentry : cache.lookup name = some entry)
    (hdigest : entry.manifest.bindingDigest = bindingDigest a.binding) :
    ∃ (c' : CompileCall) (a' : Admission) (image : List UInt8), c'.admit = .ok a' ∧ entry = ⟨c'.manifest a' image, image⟩ ∧
      a'.binding = a.binding := by
  obtain ⟨c', hc', a', h', image, rfl⟩ := hcache name entry hentry
  exact ⟨c', a', image, h', rfl, hcol c' hc' c hc a' a h' h hdigest⟩

/-- The label of a product is that of a call with the same binding. -/
theorem Returned.label (hp : Returned cache c a p) (hcache : CacheOk calls cache)
    (hcol : NoCollision calls) (hc : c ∈ calls) (h : c.admit = .ok a) :
    ∃ (c' : CompileCall) (a' : Admission), c'.admit = .ok a' ∧ a'.binding = a.binding ∧
      p.assurance = a'.assurance ∧
      p.facts.assurance = assuranceWord a'.assurance ∧
      p.facts.certified = a'.binding.certified := by
  cases hp with
  | @hit entry _ found entry_eq =>
    obtain ⟨entry', hentry', hverify, -, -, -⟩ := readCached_ok found
    obtain rfl := Option.some.inj (entry_eq.symm.trans hentry')
    obtain ⟨c', a', image, h', rfl, hbinding⟩ :=
      hcache.written hcol hc h entry_eq (verifyManifest_digest hverify).1
    exact ⟨c', a', h', hbinding, assuranceFromWord_word a'.assurance, rfl, rfl⟩
  | fresh label word certified => exact ⟨c, a, h, rfl, label, word, certified⟩

/-- Two calls of one binding agree on whether they are certified, so a label can be stronger than
the call's own only by one step. -/
theorem rank_le_or_stale {c' : CompileCall} {a' : Admission} (h : c.admit = .ok a)
    (h' : c'.admit = .ok a') (hbinding : a'.binding = a.binding) :
    a'.assurance.rank ≤ a.assurance.rank ∨
      (a.assurance = .Experimental ∧ a'.assurance = .Unjudged) := by
  have hcertified : a'.assurance = .Certified ↔ a.assurance = .Certified := by
    rw [← CompileCall.certified_iff h', ← CompileCall.certified_iff h, hbinding]
  cases ha : a.assurance <;> cases ha' : a'.assurance <;> simp_all [JitAssurance.rank]

/-- A stale hit is returned, under the label of the earlier call. -/
theorem StaleHit.returned (hstale : StaleHit cache c) (hcache : CacheOk calls cache)
    (hcol : NoCollision calls) (hc : c ∈ calls) :
    ∃ a p, c.admit = .ok a ∧ a.assurance = .Experimental ∧
      (compileProduct c).run cache = .ok p cache ∧ p.assurance = .Unjudged := by
  obtain ⟨a, entry, h, hexp, hprepared, hentry, hdigest, hword, hreadable, hlen⟩ := hstale
  obtain ⟨c', a', image, h', rfl, hbinding⟩ := hcache.written hcol hc h hentry hdigest
  have hread : readCached c.maxProductBytes c.answers.readable a cache =
      .ok (a.cachedProduct ⟨c'.manifest a' image, image⟩) := by
    unfold readCached
    rw [hentry]
    dsimp only
    rw [if_neg (by simp [hreadable]), ← hbinding, CompileCall.verify_manifest h' image, ok_bind,
      if_neg (not_not.mpr (CompileCall.matches_of_binding h h' hbinding image)),
      if_neg (not_lt.mpr hlen)]
  refine ⟨a, a.cachedProduct ⟨c'.manifest a' image, image⟩, h, hexp, ?_,
    congrArg assuranceFromWord hword⟩
  have hfrom : (c.fromCache a).run cache =
      .ok (a.cachedProduct ⟨c'.manifest a' image, image⟩) cache := by
    unfold CompileCall.fromCache
    rw [throwIf, if_neg (by simp [hprepared])]
    simp only [EStateM.run_bind, EStateM.run_pure, EStateM.run_get, hread]
  unfold compileProduct
  rw [h]
  exact hfrom

end Labels

/-! ### Two calls -/

/-- A compiler nobody can rewrite, on a device nobody has judged. -/
def safeCall : CompileCall where
  build := ⟨"source", "host", "rustc", []⟩
  acceptUncertified := false
  maxProductBytes := 16
  family := "qwen3"
  policy := .Supported
  device := some ⟨9, 0, 13000⟩
  compiler := .ok ⟨"/opt/nvcc", "/opt/nvcc", "13.0", "r13", "c0", none⟩
  support := some ⟨"a0", "o", "e", some ⟨none, some "source", some "host",
    some (NORMALIZED_FLAGS.map some), none, none⟩⟩
  answers := ⟨true, true, true, some [1], true, true, true⟩

/-- The same after a component of the compiler became world-writable, with the waiver. -/
def waivedCall : CompileCall :=
  { safeCall with
    acceptUncertified := true
    compiler := .ok ⟨"/opt/nvcc", "/opt/nvcc", "13.0", "r13", "c0", some "/opt/nvcc"⟩ }

/-- What the two calls have established. -/
def safeAdmission : Admission :=
  safeCall.admission ⟨9, 0, 13000⟩ ⟨"/opt/nvcc", "/opt/nvcc", "13.0", "r13", "c0", none⟩
    ⟨"a0", "o", "e", some ⟨none, some "source", some "host",
      some (NORMALIZED_FLAGS.map some), none, none⟩⟩
    ⟨none, some "source", some "host", some (NORMALIZED_FLAGS.map some), none, none⟩

def waivedAdmission : Admission :=
  waivedCall.admission ⟨9, 0, 13000⟩
    ⟨"/opt/nvcc", "/opt/nvcc", "13.0", "r13", "c0", some "/opt/nvcc"⟩
    ⟨"a0", "o", "e", some ⟨none, some "source", some "host",
      some (NORMALIZED_FLAGS.map some), none, none⟩⟩
    ⟨none, some "source", some "host", some (NORMALIZED_FLAGS.map some), none, none⟩

theorem safeCall_admitted : safeCall.admit = .ok safeAdmission := rfl

theorem waivedCall_admitted : waivedCall.admit = .ok waivedAdmission := rfl

/-- The two admissions have different labels, and the cache key does not tell them apart. -/
theorem waived_admissions : safeAdmission.assurance = .Unjudged ∧
    waivedAdmission.assurance = .Experimental ∧
    waivedAdmission.binding = safeAdmission.binding := by
  decide +kernel

theorem noCollision_waived : NoCollision [waivedCall, safeCall] := by
  have hsame (c : CompileCall) (hc : c ∈ [waivedCall, safeCall]) (a : Admission)
      (h : c.admit = .ok a) : a.binding = safeAdmission.binding := by
    simp only [List.mem_cons, List.not_mem_nil, or_false] at hc
    obtain rfl | rfl := hc
    · obtain rfl := Except.ok.inj (waivedCall_admitted.symm.trans h)
      exact waived_admissions.2.2
    · obtain rfl := Except.ok.inj (safeCall_admitted.symm.trans h)
      rfl
  intro c hc c' hc' a a' h h' _
  rw [hsame c hc a h, hsame c' hc' a' h']

/-- The first call leaves its product, which the second one finds. -/
theorem staleHit_waived : StaleHit (Cache.afterAll ∅ [safeCall]) waivedCall := by
  have hcache : Cache.afterAll ∅ [safeCall] = (∅ : Cache).insert
      (directoryName (bindingDigest safeAdmission.binding))
      ⟨safeCall.manifest safeAdmission [1], [1]⟩ := by
    have hanswers : safeCall.answers = ⟨true, true, true, some [1], true, true, true⟩ := rfl
    have hlen : [(1 : UInt8)].length ≤ safeCall.maxProductBytes := by decide
    rw [Cache.afterAll, List.foldl_cons, List.foldl_nil]
    exact Cache.after_fresh safeCall_admitted (AList.lookup_empty _) hanswers (by simp) hlen
  refine ⟨waivedAdmission, ⟨safeCall.manifest safeAdmission [1], [1]⟩, waivedCall_admitted,
    waived_admissions.2.1, rfl, ?_, ?_, ?_, rfl, by decide⟩
  · rw [hcache, waived_admissions.2.2, AList.lookup_insert]
  · exact (CompileCall.bindingDigest_manifest safeCall safeAdmission [1]).trans
      (congrArg bindingDigest waived_admissions.2.2.symm)
  · exact congrArg assuranceWord waived_admissions.1

/-- **Labels of products.** In every run, a refused call returns nothing and a product's certified
flag and word agree with its assurance; the assurance is no stronger than what the call itself
has established exactly when the call meets no stale hit. -/
theorem jit_labels_sound_iff (calls : List CompileCall) (c : CompileCall)
    (hcol : NoCollision (c :: calls)) :
    let cache := Cache.afterAll ∅ calls
    (∀ e, c.admit = .error e → (compileProduct c).run cache = .error e cache) ∧
      (∀ p cache', (compileProduct c).run cache = .ok p cache' →
        (p.facts.certified = true ↔ p.assurance = .Certified) ∧
          p.facts.assurance = assuranceWord p.assurance) ∧
      ((∀ p cache', (compileProduct c).run cache = .ok p cache' →
        ∃ a, c.admit = .ok a ∧ p.assurance.rank ≤ a.assurance.rank) ↔ ¬StaleHit cache c) := by
  intro cache
  have hcache : CacheOk (c :: calls) cache :=
    cacheOk_afterAll (cacheOk_empty _) (List.subset_cons_self c calls)
  have hc : c ∈ c :: calls := List.mem_cons_self
  have hlabel (p : JitProduct) (cache' : Cache) (hrun : (compileProduct c).run cache = .ok p cache') :
      ∃ a, c.admit = .ok a ∧ Returned cache c a p := ((wp_compileProduct hcache hc).of_ok hrun).2
  refine ⟨fun e he => compileProduct_refused he, fun p cache' hrun => ?_, ?_⟩
  · obtain ⟨a, h, hp⟩ := hlabel p cache' hrun
    obtain ⟨c', a', h', -, hassurance, hword, hcertified⟩ := hp.label hcache hcol hc h
    rw [hcertified, hword, hassurance]
    exact ⟨CompileCall.certified_iff h', rfl⟩
  · constructor
    · intro hsound hstale
      obtain ⟨a, p, h, hexp, hrun, hp⟩ := hstale.returned hcache hcol hc
      obtain ⟨a₁, h₁, hle⟩ := hsound p cache hrun
      obtain rfl := Except.ok.inj (h.symm.trans h₁)
      rw [hexp, hp] at hle
      exact absurd hle (by decide)
    · intro hno p cache' hrun
      obtain ⟨a, h, hp⟩ := hlabel p cache' hrun
      refine ⟨a, h, ?_⟩
      cases hp with
      | fresh label word certified => rw [label]
      | @hit entry prepared found entry_eq =>
        obtain ⟨entry', hentry', hverify, hreadable, hlen, -⟩ := readCached_ok found
        obtain rfl := Option.some.inj (entry_eq.symm.trans hentry')
        have hdigest := (verifyManifest_digest hverify).1
        obtain ⟨c', a', image, h', rfl, hbinding⟩ := hcache.written hcol hc h entry_eq hdigest
        have hassurance : (a.cachedProduct ⟨c'.manifest a' image, image⟩).assurance =
            a'.assurance := assuranceFromWord_word a'.assurance
        obtain hle | ⟨hexp, hunjudged⟩ := rank_le_or_stale h h' hbinding
        · exact hassurance ▸ hle
        · exact absurd ⟨a, _, h, hexp, prepared, entry_eq, hdigest,
            congrArg assuranceWord hunjudged, hreadable, hlen⟩ hno

theorem jit_labels_sound_waived :
    (∀ p cache', (compileProduct waivedCall).run (Cache.afterAll ∅ [safeCall]) = .ok p cache' →
      ∃ a, waivedCall.admit = .ok a ∧ p.assurance.rank ≤ a.assurance.rank) ↔
        ¬StaleHit (Cache.afterAll ∅ [safeCall]) waivedCall :=
  (jit_labels_sound_iff [safeCall] waivedCall noCollision_waived).2.2

/-- After the first call, the second one gets a product under a label it has not established. -/
theorem jit_label_overstated :
    ∃ p cache', (compileProduct waivedCall).run (Cache.afterAll ∅ [safeCall]) = .ok p cache' ∧
      p.assurance = .Unjudged ∧
        ¬∃ a, waivedCall.admit = .ok a ∧ p.assurance.rank ≤ a.assurance.rank := by
  obtain ⟨a, p, h, hexp, hrun, hp⟩ := staleHit_waived.returned
    (cacheOk_afterAll (cacheOk_empty _) (List.subset_cons_self waivedCall [safeCall]))
    noCollision_waived List.mem_cons_self
  refine ⟨p, _, hrun, hp, fun ⟨a', h', hle⟩ => ?_⟩
  obtain rfl := Except.ok.inj (h.symm.trans h')
  rw [hexp, hp] at hle
  exact absurd hle (by decide)

end Toktier.Facade.Jit
