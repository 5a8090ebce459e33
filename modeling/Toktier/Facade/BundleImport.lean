import Toktier.Facade.BundleLaws

/-!
# Imports as transactions

An import of an archive leaves the cache as it was, or adds the bundle under its alias. Two kinds
of file get in the way: one that lies on the way to another, and one that has the name of the
cache's own marker or of a leftover of it. And an alias can lie below another one.

## Main definitions

* `Installed`: an alias authenticates as the bundle of a manifest.
* `Transacts`: an import installs the files, and imports after it change nothing.
* `Portable`, `Vacant`: the files and the caches for which it does.
* `Undisturbed`: an import does not write below an alias that is installed.

## Main results

* `importBundle_outside`: an import without its staging directory.
* `importBundle_transaction`: when an import is a transaction.
-/
namespace Toktier.Facade.Bundle

open Toktier.Lib

/-! ## One import -/

/-- The trees in which no directory has a name twice. -/
structure Cache where
  tree : Tree
  distinct : tree.Distinct

/-- An import that comes to its staged files. -/
structure Staged [Formats] (pid : ℕ) (archive : Archive) (cache : Tree) (manifest : BundleManifest)
    (staging : Name) (staged : Tree) : Prop where
  read : readAndValidateManifest archive = .ok manifest
  fresh : uniqueDirectory pid cache = some staging
  verified : verifyArchiveFiles archive manifest none = .ok none
  extracted : createAll .nil (contents archive) = .ok staged

/-- What an import does with the cache, when the staging directory is left aside. -/
def settle (staged : Tree) (manifest : BundleManifest) (cache : Tree) :
    Except BundleError (List Name) × Tree :=
  let target := names manifest.aliasName
  if existsAt cache manifest.aliasName then
    let cache := cache.alter target pruneMarkerTemporaries
    match cache.get target with
    | none => (.error ioError, cache)
    | some node =>
        match verifyInstalled node manifest with
        | .error e => (.error e, cache)
        | .ok _ => (.ok target, cache)
  else
    match ensurePrivateDirectory cache target.dropLast with
    | .error e => (.error e, cache)
    | .ok cache =>
        if ['/', '.'].isSuffixOf (trimSlashes manifest.aliasName) then (.error ioError, cache)
        else
          match cache.place target (.dir staged) with
          | none => (.error ioError, cache)
          | some cache => (.ok target, cache)

section One

variable [Formats] {pid : ℕ} {archive : Archive} {cache : Tree} {manifest : BundleManifest}
  {staging : Name} {staged : Tree}

omit [Formats] in
theorem uniqueDirectory_fresh (h : uniqueDirectory pid cache = some staging) :
    cache.find staging = none := by
  have := List.find?_some h
  rwa [Option.isNone_iff_eq_none] at this

omit [Formats] in
/-- A name that was free can be taken again where it is free. -/
theorem uniqueDirectory_isSome {t : Tree} (h : uniqueDirectory pid cache = some staging)
    (hfind : t.find staging = none) : (uniqueDirectory pid t).isSome = true := by
  unfold uniqueDirectory at h ⊢
  refine List.find?_isSome.mpr ⟨staging, List.mem_of_find?_eq_some h, ?_⟩
  rw [hfind]
  rfl

theorem relative_of_read (h : readAndValidateManifest archive = .ok manifest) :
    Relative manifest.aliasName ∧ manifest.files ≠ [] := by
  obtain ⟨found, -, h⟩ := bind_eq_ok.mp h
  cases found with
  | none => cases h
  | some bytes =>
      dsimp only at h
      cases hparse : Formats.fromSlice bytes with
      | none =>
          rw [hparse] at h
          cases h
      | some manifest' =>
          rw [hparse] at h
          obtain ⟨u, halias, h⟩ := bind_eq_ok.mp h
          split at h
          · cases h
          rename_i hfiles
          obtain ⟨u, -, h⟩ := bind_eq_ok.mp h
          split at h
          · cases h
          cases h
          exact ⟨validateRelative_eq_ok.mp halias, hfiles⟩

/-- An import that does not come to its staged files leaves the cache as it was. -/
theorem importBundle_early (h : ∀ m s t, ¬Staged pid archive cache m s t) :
    ∃ e, importBundle pid archive cache = (.error e, cache) := by
  unfold importBundle
  cases hread : readAndValidateManifest archive with
  | error e => exact ⟨e, rfl⟩
  | ok manifest =>
      dsimp only
      cases hfresh : uniqueDirectory pid cache with
      | none => exact ⟨_, rfl⟩
      | some staging =>
          dsimp only
          rw [safeJoin_eq_ok.mpr ⟨(relative_of_read hread).1, rfl⟩]
          dsimp only
          cases hverify : verifyArchiveFiles archive manifest (some .nil) with
          | error e => exact ⟨e, by rw [FileTree.erase_put (uniqueDirectory_fresh hfresh)]⟩
          | ok destination =>
              obtain ⟨staged, -, hverified, hall⟩ := verifyArchiveFiles_some.mp hverify
              exact absurd ⟨hread, hfresh, hverified, hall⟩ (h manifest staging staged)

/-- What is left of an import when the staging directory is removed. -/
def finish (staging : Name) (x : Except BundleError (List Name) × Tree) :
    Except BundleError (List Name) × Tree :=
  match x with
  | (.error e, cache) => (.error e, cache.erase staging)
  | (.ok target, cache) => (.ok target, cache)

theorem importBundle_staged (h : Staged pid archive cache manifest staging staged) :
    importBundle pid archive cache =
      finish staging (installStaged staging staged manifest (cache.put staging (.dir staged))) := by
  have hverify := verifyArchiveFiles_some.mpr ⟨staged, rfl, h.verified, h.extracted⟩
  unfold importBundle
  rw [h.read]
  dsimp only
  rw [h.fresh]
  dsimp only
  rw [safeJoin_eq_ok.mpr ⟨(relative_of_read h.read).1, rfl⟩]
  dsimp only
  rw [hverify]
  rfl

/-- An alias below the staging directory: the cache stays as it was. -/
theorem importBundle_inside (h : Staged pid archive cache manifest staging staged)
    (hin : (names manifest.aliasName).head? = some staging) :
    (importBundle pid archive cache).2 = cache := by
  have hfind := uniqueDirectory_fresh h.fresh
  obtain ⟨p, hp⟩ : ∃ p, names manifest.aliasName = staging :: p := by
    cases hnames : names manifest.aliasName with
    | nil => rw [hnames] at hin; cases hin
    | cons n p =>
        rw [hnames] at hin
        exact ⟨p, congrArg (· :: p) (Option.some.inj hin)⟩
  rw [importBundle_staged h]
  unfold installStaged
  rw [hp]
  dsimp only
  split
  · have herase : ((cache.put staging (.dir staged)).alter (staging :: p)
        pruneMarkerTemporaries).erase staging = cache := by
      rw [FileTree.erase_alter_self, FileTree.erase_put hfind]
    split
    · exact herase
    · split
      · exact herase
      · exact herase
  · split
    · exact FileTree.erase_put hfind _
    · rename_i cache' hensure
      have hrename : renameStaging cache' staging staged manifest.aliasName = .error ioError := by
        unfold renameStaging
        rw [hp]
        exact if_pos (.inl (by simp [List.isPrefixOf]))
      rw [hrename]
      have hmk := ensurePrivateDirectory_eq_ok.mp hensure
      cases p with
      | nil =>
          cases hmk
          exact FileTree.erase_put hfind _
      | cons m p =>
          rw [List.dropLast_cons_cons] at hmk
          exact (FileTree.erase_mkdirs_self hmk).trans (FileTree.erase_put hfind _)

omit [Formats] in
/-- A directory is made beside the staging directory as without it. -/
theorem ensurePrivateDirectory_beside {p : List Name} (hfind : cache.find staging = none)
    (hp : p.head? ≠ some staging) (x : FileTree.Node Name Leaf) :
    (ensurePrivateDirectory (cache.put staging x) p).map (·.erase staging) =
      ensurePrivateDirectory cache p := by
  have hmk := FileTree.erase_mkdirs (t := cache.put staging x) hp
  rw [FileTree.erase_put hfind] at hmk
  have hfile : (∃ a, (cache.put staging x).get p = some (.file a)) ↔
      ∃ a, cache.get p = some (.file a) := by
    cases p with
    | nil => exact iff_of_false (fun ⟨_, h⟩ => nomatch h) fun ⟨_, h⟩ => nomatch h
    | cons n p =>
        have hne : staging ≠ n := fun hn => hp (congrArg some hn.symm)
        rw [FileTree.get_put, if_neg hne]
  by_cases hin : ∃ a, cache.get p = some (.file a)
  · obtain ⟨a, ha⟩ := hin
    obtain ⟨b, hb⟩ := hfile.mpr ⟨a, ha⟩
    unfold ensurePrivateDirectory
    rw [ha, hb]
    rfl
  · have hmatch {t : Tree} (ht : ¬∃ a, t.get p = some (.file a)) : ensurePrivateDirectory t p =
        match t.mkdirs p with
        | none => .error ⟨.ConfigInvalid, "bundle path contains a non-directory component", none⟩
        | some root => .ok root := by
      unfold ensurePrivateDirectory
      split
      · rename_i a ha
        exact absurd ⟨a, ha⟩ ht
      · rfl
    rw [hmatch hin, hmatch (mt hfile.mp hin), ← hmk]
    cases (cache.put staging x).mkdirs p <;> rfl

/-- Elsewhere, an import does what it does without the staging directory. -/
theorem importBundle_outside (h : Staged pid archive cache manifest staging staged)
    (hout : (names manifest.aliasName).head? ≠ some staging) :
    importBundle pid archive cache = settle staged manifest cache := by
  have hfind := uniqueDirectory_fresh h.fresh
  have hne := names_ne_nil (relative_of_read h.read).1
  obtain ⟨n, p, hp⟩ := List.exists_cons_of_ne_nil hne
  have hns : staging ≠ n := fun hn => hout (by rw [hp, hn]; rfl)
  have hhead : (n :: p).head? ≠ some staging := fun hn => hns (Option.some.inj hn).symm
  have hhead' : (n :: p).dropLast.head? ≠ some staging := by
    cases p with
    | nil => exact nofun
    | cons m p => exact fun hn => hns (Option.some.inj hn).symm
  have hexists : existsAt (cache.put staging (.dir staged)) manifest.aliasName =
      existsAt cache manifest.aliasName := by
    unfold existsAt
    rw [hp, FileTree.get_put, if_neg hns]
  rw [importBundle_staged h]
  unfold installStaged settle
  dsimp only
  rw [hexists, hp]
  split
  · -- the tree that is there is pruned and verified
    have herase : ((cache.put staging (.dir staged)).alter (n :: p)
        pruneMarkerTemporaries).erase staging = cache.alter (n :: p) pruneMarkerTemporaries := by
      rw [FileTree.erase_alter hhead (List.cons_ne_nil n p), FileTree.erase_put hfind]
    have hget : ((cache.put staging (.dir staged)).alter (n :: p) pruneMarkerTemporaries).get
        (n :: p) = (cache.alter (n :: p) pruneMarkerTemporaries).get (n :: p) := by
      rw [← herase, FileTree.get_erase, if_neg hns]
    rw [hget]
    cases (cache.alter (n :: p) pruneMarkerTemporaries).get (n :: p) with
    | none => exact congrArg (Prod.mk _) herase
    | some node =>
        dsimp only
        cases verifyInstalled node manifest with
        | error e => exact congrArg (Prod.mk _) herase
        | ok u => exact congrArg (Prod.mk _) herase
  · rw [← ensurePrivateDirectory_beside hfind hhead' (.dir staged)]
    cases ensurePrivateDirectory (cache.put staging (.dir staged)) (n :: p).dropLast with
    | error e => exact congrArg (Prod.mk _) (FileTree.erase_put hfind _)
    | ok cache' =>
        dsimp only [Except.map]
        unfold renameStaging
        rw [hp]
        dsimp only
        by_cases hdot : ['/', '.'].isSuffixOf (trimSlashes manifest.aliasName) = true
        · rw [if_pos (.inr hdot), if_pos hdot]
          rfl
        · have hbegins : ¬[staging].isPrefixOf (n :: p) = true := by
            simpa [List.isPrefixOf] using hns
          rw [if_neg (not_or.mpr ⟨hbegins, hdot⟩), if_neg hdot]
          cases (cache'.erase staging).place (n :: p) (.dir staged) <;> rfl

end One

/-! ## The cache after an import -/

/-- How an import ends, once its files are staged. -/
inductive Settled (staged : Tree) (manifest : BundleManifest) (cache : Tree) :
    Except BundleError (List Name) × Tree → Prop
  /-- The tree that is there is another one. -/
  | conflict (e : BundleError) (hexists : existsAt cache manifest.aliasName = true) :
      Settled staged manifest cache
        (.error e, cache.alter (names manifest.aliasName) pruneMarkerTemporaries)
  /-- The tree that is there is the bundle's. -/
  | same (node : FileTree.Node Name Leaf) (hexists : existsAt cache manifest.aliasName = true)
      (hnode : (cache.alter (names manifest.aliasName) pruneMarkerTemporaries).get
        (names manifest.aliasName) = some node)
      (hverify : verifyInstalled node manifest = .ok ()) :
      Settled staged manifest cache (.ok (names manifest.aliasName),
        cache.alter (names manifest.aliasName) pruneMarkerTemporaries)
  /-- It could not be renamed; directories may have been made for it. -/
  | blocked (e : BundleError) (cache' : Tree) (hno : existsAt cache manifest.aliasName = false)
      (hmade : cache' = cache ∨ cache.mkdirs (names manifest.aliasName).dropLast = some cache') :
      Settled staged manifest cache (.error e, cache')
  /-- It was renamed. -/
  | installed (made cache' : Tree) (hno : existsAt cache manifest.aliasName = false)
      (hmade : cache.mkdirs (names manifest.aliasName).dropLast = some made)
      (hdot : ['/', '.'].isSuffixOf (trimSlashes manifest.aliasName) = false)
      (hplace : made.place (names manifest.aliasName) (.dir staged) = some cache') :
      Settled staged manifest cache (.ok (names manifest.aliasName), cache')

theorem settle_cases (staged : Tree) (manifest : BundleManifest) (cache : Tree) :
    Settled staged manifest cache (settle staged manifest cache) := by
  unfold settle
  dsimp only
  split
  · rename_i hexists
    cases hnode : (cache.alter (names manifest.aliasName) pruneMarkerTemporaries).get
        (names manifest.aliasName) with
    | none => exact .conflict _ hexists
    | some node =>
        dsimp only
        cases hverify : verifyInstalled node manifest with
        | error e => exact .conflict e hexists
        | ok u => exact .same node hexists hnode hverify
  · rename_i hexists
    have hno : existsAt cache manifest.aliasName = false := Bool.eq_false_iff.mpr hexists
    cases hmade : ensurePrivateDirectory cache (names manifest.aliasName).dropLast with
    | error e => exact .blocked e cache hno (.inl rfl)
    | ok made =>
        have hmade := ensurePrivateDirectory_eq_ok.mp hmade
        dsimp only
        split
        · exact .blocked _ made hno (.inr hmade)
        · rename_i hdot
          cases hplace : made.place (names manifest.aliasName) (.dir staged) with
          | none => exact .blocked _ made hno (.inr hmade)
          | some cache' =>
              exact .installed made cache' hno hmade (Bool.eq_false_iff.mpr hdot) hplace

/-- An alias authenticates as the bundle of a manifest. -/
def Installed (cache : Tree) (aliasName : Text) (manifest : BundleManifest) : Prop :=
  Relative aliasName ∧ manifest.aliasName = aliasName ∧ ∃ node,
    cache.get (names aliasName) = some node ∧ verifyInstalled node manifest = .ok ()

/-- Below a path there are the same files. -/
def SameFiles (t t' : Tree) (p : List Name) : Prop :=
  ∃ d d', t.get p = some (.dir d) ∧ t'.get p = some (.dir d') ∧
    ∀ q a, d'.get q = some (.file a) ↔ d.get q = some (.file a)

/-- At the top of a directory there is a file that an import would clear. -/
def HasTemporary (cache : Tree) (p : List Name) : Prop :=
  ∃ name data, cache.get (p ++ [name]) = some (.file (.File data)) ∧
    isMarkerTemporary name.text = true

section Trees

variable {t t' : Tree} {p q : List Name} {a : Leaf} {aliasName : Text} {manifest : BundleManifest}

theorem Installed.dir (h : Installed t aliasName manifest) (ht : t.Distinct) :
    ∃ d, t.get (names aliasName) = some (.dir d) ∧ d.Distinct ∧ Authentic d manifest := by
  obtain ⟨-, -, node, hnode, hverify⟩ := h
  cases node with
  | file a => cases hverify
  | dir d =>
      have hd : d.Distinct := FileTree.distinct_get ht hnode
      exact ⟨d, hnode, hd, (verifyInstalled_eq_ok hd).mp hverify⟩

theorem SameFiles.installed (h : SameFiles t t' (names aliasName)) (ht : t.Distinct)
    (ht' : t'.Distinct) : Installed t aliasName manifest ↔ Installed t' aliasName manifest := by
  obtain ⟨d, d', hd, hd', hsame⟩ := h
  have hdd : d.Distinct := FileTree.distinct_get ht hd
  have hdd' : d'.Distinct := FileTree.distinct_get ht' hd'
  unfold Installed
  rw [hd, hd']
  refine and_congr_right fun _ => and_congr_right fun _ => ?_
  constructor
  · rintro ⟨node, hnode, hverify⟩
    cases hnode
    exact ⟨_, rfl, (verifyInstalled_eq_ok hdd').mpr
      (((verifyInstalled_eq_ok hdd).mp hverify).congr hsame)⟩
  · rintro ⟨node, hnode, hverify⟩
    cases hnode
    exact ⟨_, rfl, (verifyInstalled_eq_ok hdd).mpr
      (((verifyInstalled_eq_ok hdd').mp hverify).congr fun q a => (hsame q a).symm)⟩

theorem SameFiles.refl (h : t.IsDir p) : SameFiles t t p := by
  obtain ⟨d, hd⟩ := h
  exact ⟨d, d, hd, hd, fun _ _ => Iff.rfl⟩

theorem sameFiles_of_get {d : Tree} (hd : t.get p = some (.dir d)) (hdir : t'.IsDir p)
    (h : ∀ q a, t'.get (p ++ q) = some (.file a) ↔ t.get (p ++ q) = some (.file a)) :
    SameFiles t t' p := by
  obtain ⟨d', hd'⟩ := hdir
  refine ⟨d, d', hd, hd', fun q a => ?_⟩
  rw [← FileTree.get_append_of_dir hd, ← FileTree.get_append_of_dir hd']
  exact h q a

theorem sameFiles_mkdirs (h : t.mkdirs q = some t') (hdir : t.IsDir p) : SameFiles t t' p := by
  obtain ⟨d, hd⟩ := hdir
  exact sameFiles_of_get hd ((FileTree.isDir_mkdirs h).mpr (.inl ⟨d, hd⟩)) fun r a =>
    FileTree.get_mkdirs_file h

theorem keepsEntry_iff {name : Name} : keepsEntry name a = true ↔
    ∀ data, a = .File data → isMarkerTemporary name.text = false := by
  cases a with
  | Special => exact iff_of_true rfl nofun
  | File data =>
      unfold keepsEntry
      rw [Bool.not_eq_true']
      exact ⟨fun h _ _ => h, fun h => h data rfl⟩

/-- The files after the leftovers of one directory are cleared. -/
theorem get_prune (ht : t.Distinct) :
    (t.alter q pruneMarkerTemporaries).get p = some (.file a) ↔
      t.get p = some (.file a) ∧ ∀ name data, p = q ++ [name] → a = .File data →
        isMarkerTemporary name.text = false := by
  refine (FileTree.get_alter_retain_file ht).trans (and_congr_right fun _ => ?_)
  constructor
  · exact fun h name data hp hdata => keepsEntry_iff.mp (h name hp) data hdata
  · exact fun h name hp => keepsEntry_iff.mpr fun data hdata => h name data hp hdata

theorem distinct_prune (ht : t.Distinct) : (t.alter q pruneMarkerTemporaries).Distinct :=
  FileTree.distinct_alter ht fun _ he => FileTree.distinct_retain he

/-- Clearing leftovers changes a directory only if it is on the way to one of them. -/
theorem sameFiles_prune (ht : t.Distinct) (hdir : t.IsDir p)
    (hno : p <+: q → ¬HasTemporary t q) :
    SameFiles t (t.alter q pruneMarkerTemporaries) p := by
  obtain ⟨d, hd⟩ := hdir
  refine sameFiles_of_get hd ((FileTree.isDir_alter_retain ht).mpr ⟨d, hd⟩) fun r a => ?_
  rw [get_prune ht]
  refine and_iff_left_of_imp fun hget name data hp hdata => ?_
  subst hdata
  by_cases hbegins : p <+: q
  · refine Bool.eq_false_iff.mpr fun htemp => hno hbegins ⟨name, data, hp ▸ hget, htemp⟩
  · -- otherwise the directory would be the leftover itself
    have hlast : p <+: q ++ [name] := hp ▸ List.prefix_append p r
    obtain hsame | hbegins' := List.prefix_concat_iff.mp hlast
    · rw [hp, ← hsame, hd] at hget
      cases hget
    · exact absurd hbegins' hbegins

end Trees

/-! ## Imports that fail -/

section Imports

variable [Formats] {pid : ℕ} {archive : Archive} {cache : Cache} {tree' : Tree}
  {manifest : BundleManifest} {staging : Name} {staged : Tree}

omit [Formats] in
theorem not_get_of_fresh {t : Tree} {p : List Name} (hfind : t.find staging = none)
    (hp : p.head? = some staging) : t.get p = none := by
  cases p with
  | nil => cases hp
  | cons n p =>
      cases hp
      exact FileTree.get_new hfind p

omit [Formats] in
theorem dir_of_temporary {t : Tree} {p : List Name} (h : HasTemporary t p) : t.IsDir p := by
  obtain ⟨name, data, hget, -⟩ := h
  exact FileTree.exists_dir_of_get hget (List.cons_ne_nil name [])

/-- No installed alias at or above that of an archive has a leftover where an import of the archive
would clear it. -/
def FailsClean (pid : ℕ) (archive : Archive) (cache : Tree) : Prop :=
  ∀ manifest staging staged, Staged pid archive cache manifest staging staged →
    ∀ aliasName installed, Installed cache aliasName installed →
      names aliasName <+: names manifest.aliasName →
        ¬HasTemporary cache (names manifest.aliasName)

/-- An import that fails leaves the installed aliases as they were, but for the leftovers. -/
theorem failed_import {e : BundleError} (h : importBundle pid archive cache.tree = (.error e, tree')) :
    (∀ aliasName installed, Installed cache.tree aliasName installed →
        SameFiles cache.tree tree' (names aliasName)) ↔ FailsClean pid archive cache.tree := by
  have hrefl : ∀ aliasName installed, Installed cache.tree aliasName installed →
      SameFiles cache.tree cache.tree (names aliasName) := by
    intro aliasName installed hin
    obtain ⟨d, hd, -⟩ := hin.dir cache.distinct
    exact SameFiles.refl ⟨d, hd⟩
  by_cases hstaged : ∃ m s t, Staged pid archive cache.tree m s t
  · obtain ⟨manifest, staging, staged, hs⟩ := hstaged
    -- an import has its staged files once
    have hone {m : BundleManifest} {s : Name} {t : Tree}
        (h' : Staged pid archive cache.tree m s t) : m = manifest :=
      Except.ok.inj (h'.read.symm.trans hs.read)
    by_cases hin : (names manifest.aliasName).head? = some staging
    · have hsame := importBundle_inside hs hin
      rw [h] at hsame
      obtain rfl : tree' = cache.tree := hsame
      refine iff_of_true hrefl fun m s t hm _ _ _ _ htemp => ?_
      rw [hone hm] at htemp
      obtain ⟨d, hd⟩ := dir_of_temporary htemp
      rw [not_get_of_fresh (uniqueDirectory_fresh hs.fresh) hin] at hd
      cases hd
    · have hsettled := settle_cases staged manifest cache.tree
      rw [← importBundle_outside hs hin, h] at hsettled
      cases hsettled with
      | conflict e hexists =>
          constructor
          · intro hsame m s t hm aliasName installed hinst hbegins htemp
            rw [hone hm] at htemp hbegins
            obtain ⟨name, data, hget, htemp⟩ := htemp
            obtain ⟨d, d', hd, hd', hfiles⟩ := hsame aliasName installed hinst
            obtain ⟨r, hr⟩ := hbegins
            rw [← hr, List.append_assoc, FileTree.get_append_of_dir hd, ← hfiles,
              ← FileTree.get_append_of_dir hd', ← List.append_assoc, hr,
              get_prune cache.distinct] at hget
            have := hget.2 name data rfl rfl
            rw [htemp] at this
            cases this
          · intro hclean aliasName installed hinst
            obtain ⟨d, hd, -⟩ := hinst.dir cache.distinct
            exact sameFiles_prune cache.distinct ⟨d, hd⟩
              (hclean manifest staging staged hs aliasName installed hinst)
      | blocked e _ hno hmade =>
          refine iff_of_true (fun aliasName installed hinst => ?_) fun m s t hm _ _ _ _ htemp => ?_
          · obtain ⟨d, hd, -⟩ := hinst.dir cache.distinct
            obtain rfl | hmade := hmade
            · exact SameFiles.refl ⟨d, hd⟩
            · exact sameFiles_mkdirs hmade ⟨d, hd⟩
          · rw [hone hm] at htemp
            obtain ⟨d, hd⟩ := dir_of_temporary htemp
            unfold existsAt at hno
            rw [hd] at hno
            cases hno
  · have hearly : ∀ m s t, ¬Staged pid archive cache.tree m s t := fun m s t hm =>
      hstaged ⟨m, s, t, hm⟩
    obtain ⟨e', he'⟩ := importBundle_early hearly
    rw [h] at he'
    obtain rfl : tree' = cache.tree := congrArg Prod.snd he'
    exact iff_of_true hrefl fun m s t hm => absurd hm (hearly m s t)

/-! ## Imports that succeed -/

/-- An import of this manifest writes nothing at or below another alias that is installed. -/
def Beside (cache : Tree) (manifest : BundleManifest) : Prop :=
  ∀ aliasName installed, aliasName ≠ manifest.aliasName → Installed cache aliasName installed →
    names aliasName <+: names manifest.aliasName →
      cache.get (names manifest.aliasName) ≠ none ∧
        ¬HasTemporary cache (names manifest.aliasName)

theorem staged_of_ok {target : List Name}
    (h : importBundle pid archive cache.tree = (.ok target, tree')) :
    ∃ m s t, Staged pid archive cache.tree m s t := by
  by_contra hno
  obtain ⟨e, he⟩ := importBundle_early fun m s t hm => hno ⟨m, s, t, hm⟩
  rw [h] at he
  cases he

omit [Formats] in
theorem joined_eq_marker {p : List Name} {name : Name}
    (h : joined (p ++ [name]) = VERIFIED_MARKER_NAME) : p = [] ∧ name.text = VERIFIED_MARKER_NAME := by
  have hvalid : Name.Valid VERIFIED_MARKER_NAME := by decide
  have hsingle : joined [⟨VERIFIED_MARKER_NAME, hvalid⟩] = VERIFIED_MARKER_NAME := rfl
  have hsame := joined_injective (by simp) (by simp) (h.trans hsingle.symm)
  cases p with
  | nil =>
      cases hsame
      exact ⟨rfl, rfl⟩
  | cons n p =>
      have hlength := congrArg List.length hsame
      simp at hlength

omit [Formats] in
/-- An installed bundle declares the leftovers that it holds, and is not the same without them. -/
theorem not_installed_of_temporary {t : Tree} (ht : t.Distinct) {aliasName : Text}
    {installed : BundleManifest} {q : List Name} (hinst : Installed t aliasName installed)
    (hbegins : names aliasName <+: q) (htemp : HasTemporary t q) :
    ¬Installed (t.alter q pruneMarkerTemporaries) aliasName installed := by
  intro hafter
  obtain ⟨name, data, hget, htemp⟩ := htemp
  obtain ⟨r, rfl⟩ := hbegins
  obtain ⟨d, hd, -, hauth⟩ := hinst.dir ht
  obtain ⟨d', hd', -, hauth'⟩ := hafter.dir (distinct_prune ht)
  have hfile : d.get (r ++ [name]) = some (.file (.File data)) := by
    rw [← FileTree.get_append_of_dir hd, ← List.append_assoc]
    exact hget
  obtain ⟨-, -, hmarker | ⟨row, hrow, hpath⟩⟩ := hauth.declared _ _ hfile
  · rw [(joined_eq_marker hmarker).2] at htemp
    exact absurd htemp (by decide)
  · obtain ⟨-, p, data', hget', hp, -⟩ := hauth'.present row hrow
    have hsame : p = r ++ [name] :=
      joined_injective (ne_nil_of_get_file hget') (by simp) (hp.trans hpath)
    rw [hsame, ← FileTree.get_append_of_dir hd', ← List.append_assoc, get_prune ht] at hget'
    have := hget'.2 name data' rfl rfl
    rw [htemp] at this
    cases this

theorem exists_staged_file (hs : Staged pid archive cache.tree manifest staging staged) :
    ∃ p data, staged.get p = some (.file (.File data)) := by
  obtain ⟨-, -, hlength, -⟩ := verifyArchiveFiles_none hs.verified
  have hfiles := (relative_of_read hs.read).2
  cases hcontents : contents archive with
  | nil =>
      rw [hcontents] at hlength
      exact absurd (List.eq_nil_of_length_eq_zero hlength.symm) hfiles
  | cons file files =>
      have hextracted := hs.extracted
      rw [hcontents] at hextracted
      exact ⟨names file.1, file.2,
        (get_createAll_file hextracted).mpr (.inr ⟨file, List.mem_cons_self, rfl, rfl⟩)⟩

/-- An import that succeeds leaves the other aliases as they were, when it is beside them. -/
theorem successful_import {target : List Name} (hread : readAndValidateManifest archive = .ok manifest)
    (h : importBundle pid archive cache.tree = (.ok target, tree')) :
    (∀ aliasName, aliasName ≠ manifest.aliasName → ∀ before, Installed cache.tree aliasName before →
        ∀ installed, Installed cache.tree aliasName installed ↔
          Installed tree' aliasName installed) ↔ Beside cache.tree manifest := by
  obtain ⟨m, staging, staged, hs⟩ := staged_of_ok h
  obtain rfl : m = manifest := Except.ok.inj (hs.read.symm.trans hread)
  by_cases hin : (names m.aliasName).head? = some staging
  · have hsame := importBundle_inside hs hin
    rw [h] at hsame
    obtain rfl : tree' = cache.tree := hsame
    refine iff_of_true (fun _ _ _ _ _ => Iff.rfl) fun aliasName installed _ hinst hbegins => ?_
    obtain ⟨d, hd, -⟩ := hinst.dir cache.distinct
    have hne := names_ne_nil hinst.1
    have hhead : (names aliasName).head? = some staging := by
      obtain ⟨n, p, hp⟩ := List.exists_cons_of_ne_nil hne
      obtain ⟨r, hr⟩ := hbegins
      rw [← hr, hp] at hin
      rw [hp]
      exact hin
    rw [not_get_of_fresh (uniqueDirectory_fresh hs.fresh) hhead] at hd
    cases hd
  · have hsettled := settle_cases staged m cache.tree
    rw [← importBundle_outside hs hin, h] at hsettled
    cases hsettled with
    | same node hexists hnode hverify =>
        have hthere : cache.tree.get (names m.aliasName) ≠ none := by
          intro hnone
          unfold existsAt at hexists
          rw [hnone] at hexists
          cases hexists
        constructor
        · intro hsame aliasName installed hne hinst hbegins
          refine ⟨hthere, fun htemp => ?_⟩
          exact not_installed_of_temporary cache.distinct hinst hbegins htemp
            ((hsame aliasName hne installed hinst installed).mp hinst)
        · intro hbeside aliasName hne before hbefore installed
          obtain ⟨d, hd, -⟩ := hbefore.dir cache.distinct
          have hsame := sameFiles_prune (q := names m.aliasName) cache.distinct ⟨d, hd⟩
            fun hbegins => (hbeside aliasName before hne hbefore hbegins).2
          exact hsame.installed cache.distinct (distinct_prune cache.distinct)
    | installed made _ hno hmade hdot hplace =>
        have hstaged : staged.Distinct := distinct_createAll hs.extracted trivial
        have hmadedist := FileTree.distinct_mkdirs cache.distinct hmade
        have hdist : tree'.Distinct :=
          FileTree.distinct_place (x := .dir staged) hmadedist hstaged hplace
        obtain ⟨hne, hmadenone, -⟩ := FileTree.exists_place_iff.mp ⟨tree', hplace⟩
        have hnone : cache.tree.get (names m.aliasName) = none := by
          cases hget : cache.tree.get (names m.aliasName) with
          | none => rfl
          | some x =>
              cases x with
              | file a =>
                  rw [(FileTree.get_mkdirs_file hmade).mpr hget] at hmadenone
                  cases hmadenone
              | dir d =>
                  obtain ⟨d', hd'⟩ := (FileTree.isDir_mkdirs hmade).mpr (.inl ⟨d, hget⟩)
                  rw [hd'] at hmadenone
                  cases hmadenone
        constructor
        · intro hsame aliasName installed haliasne hinst hbegins
          exfalso
          have hafter := (hsame aliasName haliasne installed hinst installed).mp hinst
          obtain ⟨d, hd, hddist, hauth⟩ := hinst.dir cache.distinct
          obtain ⟨d', hd', -, hauth'⟩ := hafter.dir hdist
          obtain ⟨r, hr⟩ := hbegins
          obtain ⟨p, data, hp⟩ := exists_staged_file hs
          have hpne := ne_nil_of_get_file hp
          have hrne : r ≠ [] := by
            rintro rfl
            rw [List.append_nil] at hr
            rw [← hr, hd] at hnone
            cases hnone
          -- a new file of the bundle lies in the installed tree
          have hnew : d'.get (r ++ p) = some (.file (.File data)) := by
            rw [← FileTree.get_append_of_dir hd', ← List.append_assoc, hr,
              FileTree.get_place hplace]
            exact hp
          obtain ⟨-, -, hmarker | ⟨row, hrow, hpath⟩⟩ := hauth'.declared _ _ hnew
          · obtain ⟨init, last, rfl⟩ : ∃ init last, p = init ++ [last] :=
              ⟨p.dropLast, p.getLast hpne, (List.dropLast_append_getLast hpne).symm⟩
            rw [← List.append_assoc] at hmarker
            exact hrne (List.append_eq_nil_iff.mp (joined_eq_marker hmarker).1).1
          · obtain ⟨-, p', data', hget', hp', -⟩ := hauth.present row hrow
            have hsame' : p' = r ++ p := joined_injective (ne_nil_of_get_file hget')
              (List.append_ne_nil_of_left_ne_nil hrne p) (hp'.trans hpath)
            rw [hsame', ← FileTree.get_append_of_dir hd, ← List.append_assoc, hr] at hget'
            rw [FileTree.get_of_prefix (List.prefix_append _ p) hnone] at hget'
            cases hget'
        · intro hbeside aliasName haliasne before hbefore installed
          obtain ⟨d, hd, -⟩ := hbefore.dir cache.distinct
          have hnotabove : ¬names aliasName <+: names m.aliasName := fun hbegins =>
            (hbeside aliasName before haliasne hbefore hbegins).1 hnone
          have hnotbelow : ¬names m.aliasName <+: names aliasName := by
            intro hbegins
            rw [FileTree.get_of_prefix hbegins hnone] at hd
            cases hd
          obtain ⟨e, e', he, he', hsame⟩ := sameFiles_mkdirs hmade ⟨d, hd⟩
          have hplaced : tree'.get (names aliasName) = made.get (names aliasName) :=
            FileTree.get_place_of_not_prefix hplace hnotbelow hnotabove
          exact SameFiles.installed ⟨e, e', he, hplaced.trans he', hsame⟩ cache.distinct hdist

/-! ## Imports of exported bundles -/

/-- The cache holds an alias: what is there authenticates, when the leftovers are cleared. -/
def Holds (cache : Tree) (aliasName : Text) : Prop :=
  ∃ installed, Installed (cache.alter (names aliasName) pruneMarkerTemporaries) aliasName installed

/-- An import installs the files under the alias, and imports after it succeed and change
nothing. -/
def Transacts (pid : ℕ) (archive : Archive) (cache : Tree) (aliasName : Text) (files : SourceMap) :
    Prop :=
  ∃ cache', importBundle pid archive cache = (.ok (names aliasName), cache') ∧
    (∃ d, cache'.get (names aliasName) = some (.dir d) ∧ ∀ p a, d.get p = some (.file a) ↔
      ∃ name data, (name, Source.File data) ∈ files.rows ∧ names name = p ∧ .File data = a) ∧
    ∀ pids, (∀ pid' ∈ pids, (uniqueDirectory pid' cache').isSome = true) →
      importRun archive pids cache' = some cache'

/-- The files can be told apart in a cache, from each other and from those of the cache. -/
structure Portable (files : SourceMap) : Prop where
  no_slash : ∀ source ∈ files.rows, source.1.getLast? ≠ some '/'
  apart : ∀ a ∈ files.rows, ∀ b ∈ files.rows, a.1 ≠ b.1 → ¬names a.1 <+: names b.1
  unmarked : ∀ source ∈ files.rows, source.1 ≠ VERIFIED_MARKER_NAME ∧
    ∀ name, names source.1 = [name] → isMarkerTemporary name.text = false

/-- The place of an alias is free: nothing is there, no file is on the way to it, and there is
another one for the staging directory. -/
structure Vacant (pid : ℕ) (cache : Tree) (aliasName : Text) : Prop where
  staging : ∃ s, uniqueDirectory pid cache = some s ∧ (names aliasName).head? ≠ some s
  absent : cache.get (names aliasName) = none
  clear : ∀ q a, q <+: names aliasName → cache.get q ≠ some (.file a)
  no_dot : ['/', '.'].isSuffixOf (trimSlashes aliasName) = false

section Exported

variable {aliasName : Text} {files : SourceMap}

theorem mem_contents (h : Exports aliasName files archive manifest) {name : Text}
    {data : List UInt8} :
    (name, data) ∈ contents archive ↔ (name, Source.File data) ∈ files.rows := by
  have hcontents := h.contents
  generalize files.rows = sources at hcontents
  generalize contents archive = written at hcontents
  induction hcontents with
  | nil => exact iff_of_false nofun nofun
  | @cons source file sources written hfile _ ih =>
      rw [List.mem_cons, List.mem_cons, hfile]
      refine or_congr ⟨fun h => ?_, fun h => ?_⟩ ih
      · rw [← h]
      · obtain ⟨hname, hdata⟩ := Prod.ext_iff.mp h
        exact Prod.ext hname (Source.File.inj hdata)

theorem exists_data (h : Exports aliasName files archive manifest) {source : Text × Source}
    (hsource : source ∈ files.rows) : ∃ data, source = (source.1, .File data) := by
  obtain ⟨file, -, hfile⟩ := exists_of_mem_right h.contents.flip hsource
  exact ⟨file.2, by rw [hfile]⟩

/-- A name without a slash at its end is what its path is displayed as. -/
theorem joined_names (h : Exports aliasName files archive manifest) {source : Text × Source}
    (hsource : source ∈ files.rows) (hslash : source.1.getLast? ≠ some '/') :
    joined (names source.1) = source.1 := by
  have hself := Formats.setPath_eq (h.names source hsource).2
  rw [if_neg hslash, List.append_nil] at hself
  exact hself.symm

/-- A file can be created under a name, unless a slash is at its end. -/
theorem spellsDirectory_source (h : Exports aliasName files archive manifest)
    {source : Text × Source} (hsource : source ∈ files.rows) :
    spellsDirectory source.1 = false ↔ source.1.getLast? ≠ some '/' := by
  constructor
  · intro hspells hslash
    unfold spellsDirectory at hspells
    rw [Bool.or_eq_false_iff] at hspells
    exact of_decide_eq_false hspells.1 hslash
  · intro hslash
    rw [← joined_names h hsource hslash]
    exact spellsDirectory_joined (names_ne_nil (h.names source hsource).1)

theorem get_staged (h : Exports aliasName files archive manifest)
    (hs : createAll .nil (contents archive) = .ok staged) {p : List Name} {a : Leaf} :
    staged.get p = some (.file a) ↔
      ∃ name data, (name, Source.File data) ∈ files.rows ∧ names name = p ∧ .File data = a := by
  rw [get_createAll_file hs, or_iff_right FileTree.nil_get_file]
  constructor
  · rintro ⟨⟨name, data⟩, hfile, hp, ha⟩
    exact ⟨name, data, (mem_contents h).mp hfile, hp, ha⟩
  · rintro ⟨name, data, hfile, hp, ha⟩
    exact ⟨(name, data), (mem_contents h).mpr hfile, hp, ha⟩

omit [Formats] in
theorem grown_nil : Grown .nil := fun _ hq hdir => absurd (FileTree.isDir_of_nil.mp hdir) hq

/-- The files can be extracted when none of their names ends in a slash, and each is apart. -/
theorem exists_staged_iff (h : Exports aliasName files archive manifest) :
    (∃ staged, createAll .nil (contents archive) = .ok staged) ↔
      (∀ source ∈ files.rows, source.1.getLast? ≠ some '/') ∧
        ∀ a ∈ files.rows, ∀ b ∈ files.rows, a.1 ≠ b.1 → ¬names a.1 <+: names b.1 := by
  have hpairs : (contents archive).Pairwise (fun f g => Apart (names f.1) (names g.1)) ↔
      files.rows.Pairwise (fun a b => Apart (names a.1) (names b.1)) := by
    have hcontents := h.contents
    have hmap : (contents archive).map Prod.fst = files.rows.map Prod.fst := by
      refine eq_of_forall₂ (R := fun x y => y = x) ?_ fun _ _ _ h => h
      rw [List.forall₂_map_left_iff, List.forall₂_map_right_iff]
      exact hcontents.imp fun source file hfile => by rw [hfile]
    rw [← List.pairwise_map (f := Prod.fst) (R := fun a b => Apart (names a) (names b)), hmap,
      List.pairwise_map]
  rw [exists_createAll_iff grown_nil, hpairs]
  constructor
  · rintro ⟨hfiles, hapart⟩
    refine ⟨fun source hsource => ?_, fun a ha b hb hne hbegins => ?_⟩
    · obtain ⟨data, hdata⟩ := exists_data h hsource
      rw [hdata] at hsource
      exact (spellsDirectory_source h hsource).mp (hfiles _ ((mem_contents h).mpr hsource)).2.1
    · have hsymm : Std.Symm fun a b : Text × Source => Apart (names a.1) (names b.1) :=
        ⟨fun _ _ => Apart.symm⟩
      exact (hapart.forall ha hb fun hab => hne (congrArg Prod.fst hab)).1 hbegins
  · rintro ⟨hslash, hapart⟩
    refine ⟨fun file hfile => ?_, files.sorted.imp_of_mem fun {a b} ha hb hlt => ?_⟩
    · have hsource := (mem_contents h).mp hfile
      exact ⟨(h.names _ hsource).1, (spellsDirectory_source h hsource).mpr (hslash _ hsource),
        fun q a hq => absurd hq FileTree.nil_get_file⟩
    · have hne : a.1 ≠ b.1 := fun hab => List.lt_irrefl _ (hab ▸ hlt)
      exact ⟨hapart a ha b hb hne, hapart b hb a ha hne.symm⟩

/-- The installed files authenticate, when none has a name of the cache's own. -/
theorem authentic_staged (h : Exports aliasName files archive manifest) (hfiles : Portable files)
    (hs : createAll .nil (contents archive) = .ok staged) : Authentic staged manifest := by
  constructor
  · intro p a hget
    obtain ⟨name, data, hsource, rfl, rfl⟩ := (get_staged h hs).mp hget
    obtain ⟨row, hrow, data', heq, -⟩ :
        ∃ row ∈ manifest.files, RowOf (name, .File data) row := by
      obtain ⟨row, hrow, hR⟩ := exists_of_mem_right h.rows.flip hsource
      exact ⟨row, hrow, hR⟩
    have hname : joined (names name) = name := joined_names h hsource (hfiles.no_slash _ hsource)
    exact ⟨data, rfl, .inr ⟨row, hrow, (congrArg Prod.fst heq).symm.trans hname.symm⟩⟩
  · intro row hrow
    obtain ⟨source, hsource, data, rfl, hhash⟩ := exists_of_mem_right h.rows hrow
    exact ⟨(h.names _ hsource).1, names row.path, data,
      (get_staged h hs).mpr ⟨row.path, data, hsource, rfl, rfl⟩,
      joined_names h hsource (hfiles.no_slash _ hsource), (hfiles.unmarked _ hsource).1, hhash⟩

/-- The files of a bundle that authenticates again have no name of the cache's own. -/
theorem unmarked_of_authentic (h : Exports aliasName files archive manifest)
    (hstaged : staged.Distinct) (hauth : Authentic (staged.retain keepsEntry) manifest) :
    ∀ source ∈ files.rows, source.1 ≠ VERIFIED_MARKER_NAME ∧
      ∀ name, names source.1 = [name] → isMarkerTemporary name.text = false := by
  intro source hsource
  obtain ⟨row, hrow, data, rfl, -⟩ := exists_of_mem_right h.rows.flip hsource
  obtain ⟨-, p, data', hget, hp, hmarker, -⟩ := hauth.present row hrow
  refine ⟨hmarker, fun name hname => ?_⟩
  obtain ⟨-, hkeep⟩ := (FileTree.get_retain_file hstaged).mp hget
  have hsame : names row.path = p := by
    rw [← hp]
    exact names_joined (ne_nil_of_get_file hget)
  exact keepsEntry_iff.mp (hkeep name (hsame.symm.trans hname)) data' rfl

omit [Formats] in
/-- A staging directory that is free stays free, beside the alias that was installed. -/
theorem find_installed {made : Tree} {n : Name} (hfind : cache.tree.find n = none)
    (hhead : (names aliasName).head? ≠ some n)
    (hmade : cache.tree.mkdirs (names aliasName).dropLast = some made)
    (hplace : made.place (names aliasName) (.dir staged) = some tree') : tree'.find n = none := by
  have hget (t : Tree) : t.get [n] = t.find n := by
    rw [FileTree.get_cons]
    cases t.find n with
    | none => rfl
    | some x => exact FileTree.Node.get_nil x
  have hnotbegins {p : List Name} (hp : p.head? ≠ some n) : ¬[n] <+: p := by
    rintro ⟨r, rfl⟩
    exact hp rfl
  have hnotabove : ¬names aliasName <+: [n] := by
    intro hbegins
    have hne := (FileTree.exists_place_iff.mp ⟨tree', hplace⟩).1
    obtain ⟨m, p, hp⟩ := List.exists_cons_of_ne_nil hne
    rw [hp, List.cons_prefix_cons] at hbegins
    rw [hp, hbegins.1] at hhead
    exact hhead rfl
  rw [← hget, FileTree.get_place_of_not_prefix hplace hnotabove (hnotbegins hhead)]
  cases hm : made.get [n] with
  | none => rfl
  | some x =>
      exfalso
      cases x with
      | file a =>
          have := (FileTree.get_mkdirs_file hmade).mp hm
          rw [hget, hfind] at this
          cases this
      | dir d =>
          obtain ⟨e, he⟩ | hbegins := (FileTree.isDir_mkdirs hmade).mp ⟨d, hm⟩
          · rw [hget, hfind] at he
            cases he
          · exact hnotbegins hhead (hbegins.trans (List.dropLast_prefix _))

/-- Once its files are at the place of its alias, a bundle is imported again. -/
theorem exists_staged_again {t : Tree} {name : Name} (hs : Staged pid archive cache.tree manifest staging staged)
    (hfresh : uniqueDirectory pid' t = some name) (hget : t.get (names manifest.aliasName) = some (.dir staged)) :
    importBundle pid' archive t = settle staged manifest t := by
  refine importBundle_outside ⟨hs.read, hfresh, hs.verified, hs.extracted⟩ fun hhead => ?_
  rw [not_get_of_fresh (uniqueDirectory_fresh hfresh) hhead] at hget
  cases hget

omit [Formats] in
theorem existsAt_of_dir {t e : Tree} {name : Text} (h : t.get (names name) = some (.dir e)) :
    existsAt t name = true := by
  unfold existsAt
  rw [h]

omit [Formats] in
/-- Where nothing is in the way, the bundle is installed. -/
theorem settle_vacant (h : Vacant pid cache.tree manifest.aliasName)
    (halias : Relative manifest.aliasName) :
    ∃ made tree', cache.tree.mkdirs (names manifest.aliasName).dropLast = some made ∧
      made.place (names manifest.aliasName) (.dir staged) = some tree' ∧
      settle staged manifest cache.tree = (.ok (names manifest.aliasName), tree') := by
  have hne := names_ne_nil halias
  obtain ⟨made, hmade⟩ := FileTree.exists_mkdirs_iff.mpr
    fun q a (hq : q <+: (names manifest.aliasName).dropLast) =>
      h.clear q a (hq.trans (List.dropLast_prefix _))
  have hnone : made.get (names manifest.aliasName) = none := by
    cases hget : made.get (names manifest.aliasName) with
    | none => rfl
    | some x =>
        exfalso
        cases x with
        | file a => exact h.clear _ a (List.prefix_refl _) ((FileTree.get_mkdirs_file hmade).mp hget)
        | dir d =>
            obtain ⟨e, he⟩ | hbegins := (FileTree.isDir_mkdirs hmade).mp ⟨d, hget⟩
            · rw [h.absent] at he
              cases he
            · have hlength := hbegins.length_le
              rw [List.length_dropLast] at hlength
              have := List.length_pos_of_ne_nil hne
              omega
  obtain ⟨tree', hplace⟩ := FileTree.exists_place_iff.mpr
    ⟨hne, hnone, (FileTree.isDir_mkdirs hmade).mpr (.inr (List.prefix_refl _))⟩
  refine ⟨made, tree', hmade, hplace, ?_⟩
  have hno : existsAt cache.tree manifest.aliasName = false := by
    unfold existsAt
    rw [h.absent]
  unfold settle
  rw [hno]
  dsimp only
  rw [if_neg Bool.false_ne_true, ensurePrivateDirectory_eq_ok.mpr hmade]
  dsimp only
  rw [h.no_dot, if_neg Bool.false_ne_true, hplace]

/-- When the import of an exported bundle installs it for good. -/
theorem transacts_iff {facts : BundleInspection}
    (hexport : exportBundle aliasName files = .ok (archive, facts))
    (hnotheld : ¬Holds cache.tree aliasName) :
    Transacts pid archive cache.tree aliasName files ↔
      Portable files ∧ Vacant pid cache.tree aliasName := by
  obtain ⟨manifest, h⟩ := exportBundle_ok hexport
  obtain rfl := h.aliasName_eq
  constructor
  · rintro ⟨tree', himport, ⟨d, hd, hfiles⟩, hagain⟩
    obtain ⟨m, staging, staged, hs⟩ := staged_of_ok himport
    obtain rfl : m = manifest := Except.ok.inj (hs.read.symm.trans h.read)
    have hstaged : staged.Distinct := distinct_createAll hs.extracted trivial
    have hfind := uniqueDirectory_fresh hs.fresh
    by_cases hin : (names m.aliasName).head? = some staging
    · have hsame := importBundle_inside hs hin
      rw [himport] at hsame
      obtain rfl : tree' = cache.tree := hsame
      rw [not_get_of_fresh hfind hin] at hd
      cases hd
    have hsettled := settle_cases staged m cache.tree
    rw [← importBundle_outside hs hin, himport] at hsettled
    cases hsettled with
    | same node hexists hnode hverify =>
        exact absurd ⟨m, h.relative, rfl, node, hnode, hverify⟩ hnotheld
    | installed made _ hno hmade hdot hplace =>
        have hget : tree'.get (names m.aliasName) = some (.dir staged) := by
          have := FileTree.get_place hplace []
          rwa [List.append_nil] at this
        obtain ⟨-, hmadenone, -⟩ := FileTree.exists_place_iff.mp ⟨tree', hplace⟩
        have hnofile (a : Leaf) : cache.tree.get (names m.aliasName) ≠ some (.file a) := by
          intro ha
          rw [(FileTree.get_mkdirs_file hmade).mpr ha] at hmadenone
          cases hmadenone
        have hvacant : Vacant pid cache.tree m.aliasName := by
          refine ⟨⟨staging, hs.fresh, hin⟩, ?_, fun q a hq ha => ?_, hdot⟩
          · cases hget : cache.tree.get (names m.aliasName) with
            | none => rfl
            | some x =>
                cases x with
                | file a => exact absurd hget (hnofile a)
                | dir e => rw [existsAt_of_dir hget] at hno; cases hno
          · by_cases hqt : q = names m.aliasName
            · exact hnofile a (hqt ▸ ha)
            · exact FileTree.exists_mkdirs_iff.mp ⟨made, hmade⟩ q a (dropLast_of_strict hq hqt) ha
        obtain ⟨hslash, hapart⟩ := (exists_staged_iff h).mp ⟨staged, hs.extracted⟩
        -- the staging directory is free again, and the bundle is imported once more
        have hfree := uniqueDirectory_isSome hs.fresh (find_installed hfind hin hmade hplace)
        have hrun := hagain [pid] (by simpa using hfree)
        obtain ⟨name, hname⟩ := Option.isSome_iff_exists.mp hfree
        have hsettled := settle_cases staged m tree'
        rw [← exists_staged_again hs hname hget] at hsettled
        rw [importRun] at hrun
        generalize importBundle pid archive tree' = outcome at hsettled hrun
        cases hsettled with
        | conflict e hexists => cases hrun
        | blocked e cache' hno' hmade' => cases hrun
        | installed made' cache' hno' _ _ _ =>
            rw [existsAt_of_dir hget] at hno'
            cases hno'
        | same node hexists hnode hverify =>
            rw [FileTree.get_alter_self hget] at hnode
            cases hnode
            have hauth := (verifyInstalled_eq_ok (FileTree.distinct_retain hstaged)).mp hverify
            exact ⟨⟨hslash, hapart, unmarked_of_authentic h hstaged hauth⟩, hvacant⟩
  · rintro ⟨hportable, hvacant⟩
    obtain ⟨staged, hextracted⟩ := (exists_staged_iff h).mpr ⟨hportable.no_slash, hportable.apart⟩
    obtain ⟨staging, hfresh, hout⟩ := hvacant.staging
    have hs : Staged pid archive cache.tree manifest staging staged :=
      ⟨h.read, hfresh, h.verified, hextracted⟩
    have hstaged : staged.Distinct := distinct_createAll hextracted trivial
    obtain ⟨made, tree', hmade, hplace, hsettle⟩ := settle_vacant hvacant h.relative
    have hget : tree'.get (names manifest.aliasName) = some (.dir staged) := by
      have := FileTree.get_place hplace []
      rwa [List.append_nil] at this
    refine ⟨tree', (importBundle_outside hs hout).trans hsettle,
      ⟨staged, hget, fun p a => get_staged h hextracted⟩, fun pids hpids => ?_⟩
    -- there is nothing to clear, and what is there authenticates
    have hprune : pruneMarkerTemporaries staged = staged := by
      refine FileTree.retain_of_forall hstaged fun name a ha => ?_
      obtain ⟨path, data, hsource, hname, rfl⟩ := (get_staged h hextracted).mp ha
      exact keepsEntry_iff.mpr fun _ _ => (hportable.unmarked _ hsource).2 name hname
    have hverify := (verifyInstalled_eq_ok hstaged).mpr (authentic_staged h hportable hextracted)
    have hsame : settle staged manifest tree' = (.ok (names manifest.aliasName), tree') := by
      unfold settle
      rw [existsAt_of_dir hget]
      dsimp only
      rw [if_pos rfl, FileTree.alter_of_eq hget hprune, hget]
      dsimp only
      rw [hverify]
    induction pids with
    | nil => rfl
    | cons pid' pids ih =>
        obtain ⟨hfree, hpids⟩ := List.forall_mem_cons.mp hpids
        obtain ⟨name, hname⟩ := Option.isSome_iff_exists.mp hfree
        rw [importRun, exists_staged_again hs hname hget, hsame]
        exact ih hpids

end Exported

end Imports

/-! ### A bundle -/

section Plain

/-- A number in ones. -/
def onesOf (n : ℕ) : List UInt8 := List.replicate n 1 ++ [0]

def readOnes : List UInt8 → Option (ℕ × List UInt8)
  | [] => none
  | b :: rest =>
      if b = 1 then (readOnes rest).map fun r => (r.1 + 1, r.2) else some (0, rest)

theorem readOnes_onesOf (n : ℕ) (rest : List UInt8) :
    readOnes (onesOf n ++ rest) = some (n, rest) := by
  induction n with
  | zero => rfl
  | succ n ih =>
      have hcons : onesOf (n + 1) ++ rest = 1 :: (onesOf n ++ rest) := rfl
      rw [hcons, readOnes, if_pos rfl, ih]
      rfl

/-- Values that are written one after another, and read so often. -/
def readTimes {α : Type} (read : List UInt8 → Option (α × List UInt8)) :
    ℕ → List UInt8 → Option (List α × List UInt8)
  | 0, bytes => some ([], bytes)
  | n + 1, bytes => do
      let (x, bytes) ← read bytes
      let (xs, bytes) ← readTimes read n bytes
      some (x :: xs, bytes)

theorem readTimes_flatMap {α : Type} {read : List UInt8 → Option (α × List UInt8)}
    {write : α → List UInt8} (h : ∀ x rest, read (write x ++ rest) = some (x, rest)) (xs : List α)
    (rest : List UInt8) : readTimes read xs.length (xs.flatMap write ++ rest) = some (xs, rest) := by
  induction xs with
  | nil => rfl
  | cons x xs ih =>
      rw [List.flatMap_cons, List.append_assoc, List.length_cons, readTimes, h, Option.bind_eq_bind,
        Option.bind_some]
      dsimp only
      rw [ih]
      rfl

def writeText (t : Text) : List UInt8 := onesOf t.length ++ t.flatMap fun c => onesOf c.toNat

def readChar (bytes : List UInt8) : Option (Char × List UInt8) :=
  (readOnes bytes).map fun r => (Char.ofNat r.1, r.2)

def readText (bytes : List UInt8) : Option (Text × List UInt8) := do
  let (n, bytes) ← readOnes bytes
  readTimes readChar n bytes

theorem readText_writeText (t : Text) (rest : List UInt8) :
    readText (writeText t ++ rest) = some (t, rest) := by
  have hchar (c : Char) (rest : List UInt8) :
      readChar (onesOf c.toNat ++ rest) = some (c, rest) := by
    rw [readChar, readOnes_onesOf, Option.map_some, Char.ofNat_toNat]
  rw [readText, writeText, List.append_assoc, readOnes_onesOf, Option.bind_eq_bind,
    Option.bind_some]
  exact readTimes_flatMap hchar t rest

def writeRow (row : BundleFile) : List UInt8 :=
  writeText row.path ++ (writeText row.sha256 ++ onesOf row.size)

def readRow (bytes : List UInt8) : Option (BundleFile × List UInt8) := do
  let (path, bytes) ← readText bytes
  let (sha256, bytes) ← readText bytes
  let (size, bytes) ← readOnes bytes
  some (⟨path, sha256, size⟩, bytes)

theorem readRow_writeRow (row : BundleFile) (rest : List UInt8) :
    readRow (writeRow row ++ rest) = some (row, rest) := by
  simp only [readRow, writeRow, List.append_assoc, readText_writeText, readOnes_onesOf,
    Option.bind_eq_bind, Option.bind_some]

def writeManifest (manifest : BundleManifest) : List UInt8 :=
  writeText manifest.aliasName ++ (writeText manifest.rootDigest ++
    (onesOf manifest.files.length ++ manifest.files.flatMap writeRow))

def readManifest (bytes : List UInt8) : Option BundleManifest := do
  let (aliasName, bytes) ← readText bytes
  let (digest, bytes) ← readText bytes
  let (n, bytes) ← readOnes bytes
  let (files, _) ← readTimes readRow n bytes
  some ⟨aliasName, files, digest⟩

theorem readManifest_writeManifest (manifest : BundleManifest) :
    readManifest (writeManifest manifest ++ [10]) = some manifest := by
  simp only [readManifest, writeManifest, List.append_assoc, readText_writeText, readOnes_onesOf,
    readTimes_flatMap readRow_writeRow, Option.bind_eq_bind, Option.bind_some]

/-- Paths of up to a hundred characters, and a plain form of the manifest. -/
@[reducible] def plainFormats : Formats where
  setPath name :=
    if name.length ≤ 100 then
      some (joined (names name) ++ if name.getLast? = some '/' then ['/'] else [])
    else none
  toVecPretty := writeManifest
  fromSlice := readManifest
  setPath_eq {name stored} h := by
    by_cases hlength : name.length ≤ 100
    · rw [if_pos hlength] at h
      exact (Option.some.inj h).symm
    · rw [if_neg hlength] at h
      cases h
  fromSlice_toVecPretty := readManifest_writeManifest

/-- One file. -/
def singleFile : SourceMap := ⟨[("a".toList, .File [1])], by decide⟩

/-- A file on the way to another one. -/
def fileInFile : SourceMap :=
  ⟨[("a".toList, .File []), ("a/b".toList, .File [])], by decide⟩

def emptyCache : Cache := ⟨.nil, trivial⟩

theorem exists_export {aliasName : Text} {files : SourceMap}
    (h : (@exportBundle plainFormats aliasName files).toOption.isSome = true) :
    ∃ archive facts, @exportBundle plainFormats aliasName files = .ok (archive, facts) := by
  cases hexport : @exportBundle plainFormats aliasName files with
  | error e =>
      rw [hexport] at h
      cases h
  | ok x => exact ⟨x.1, x.2, rfl⟩

theorem not_holds_emptyCache (aliasName : Text) (hne : names aliasName ≠ []) :
    ¬Holds emptyCache.tree aliasName := by
  rintro ⟨installed, -, -, node, hnode, -⟩
  obtain ⟨n, p, hp⟩ := List.exists_cons_of_ne_nil hne
  rw [hp] at hnode
  cases hnode

theorem not_get_emptyCache {q : List Name} {a : Leaf} : emptyCache.tree.get q ≠ some (.file a) := by
  cases q with
  | nil => nofun
  | cons => nofun

theorem uniqueDirectory_emptyCache (pid : ℕ) :
    uniqueDirectory pid emptyCache.tree = some (stagingName pid 0) := by
  unfold uniqueDirectory
  rw [List.range_succ_eq_map, List.map_cons, List.find?_cons_of_pos rfl]

/-- When imports are transactions: an exported bundle is installed for good in a cache without its
alias, a failed import changes no installed alias, and a successful one no other. -/
theorem importBundle_transaction [Formats] (pid : ℕ) (archive : Archive) (cache : Cache) :
    (∀ aliasName files facts, exportBundle aliasName files = .ok (archive, facts) →
      ¬Holds cache.tree aliasName →
        (Transacts pid archive cache.tree aliasName files ↔
          Portable files ∧ Vacant pid cache.tree aliasName)) ∧
    (∀ e tree', importBundle pid archive cache.tree = (.error e, tree') →
      ((∀ aliasName installed, Installed cache.tree aliasName installed →
          SameFiles cache.tree tree' (names aliasName)) ↔ FailsClean pid archive cache.tree)) ∧
    ∀ manifest target tree', readAndValidateManifest archive = .ok manifest →
      importBundle pid archive cache.tree = (.ok target, tree') →
        ((∀ aliasName, aliasName ≠ manifest.aliasName →
          ∀ before, Installed cache.tree aliasName before →
            ∀ installed, Installed cache.tree aliasName installed ↔
              Installed tree' aliasName installed) ↔ Beside cache.tree manifest) :=
  ⟨fun _ _ _ => transacts_iff, fun _ _ => failed_import, fun _ _ _ => successful_import⟩

theorem import_singleFile :
    ∃ archive facts, @exportBundle plainFormats "x".toList singleFile = .ok (archive, facts) ∧
      @Transacts plainFormats 7 archive emptyCache.tree "x".toList singleFile := by
  obtain ⟨archive, facts, hexport⟩ :=
    @exists_export "x".toList singleFile (by decide +kernel)
  have hportable : Portable singleFile := by
    have hrow {source} (h : source ∈ singleFile.rows) : source = ("a".toList, .File [1]) :=
      List.mem_singleton.mp h
    refine ⟨fun source h => ?_, fun a ha b hb hne => ?_, fun source h => ?_⟩
    · rw [hrow h]
      decide
    · rw [hrow ha, hrow hb] at hne
      exact absurd rfl hne
    · rw [hrow h]
      refine ⟨by decide, fun name hname => ?_⟩
      rw [← List.head_eq_of_cons_eq hname]
      decide
  have hvacant : Vacant 7 emptyCache.tree "x".toList :=
    ⟨⟨_, uniqueDirectory_emptyCache 7, by decide⟩, rfl, fun _ _ _ => not_get_emptyCache, by decide⟩
  exact ⟨archive, facts, hexport,
    ((@importBundle_transaction plainFormats 7 archive emptyCache).1 _ _ _ hexport
      (not_holds_emptyCache _ (by decide))).mpr ⟨hportable, hvacant⟩⟩

theorem not_import_fileInFile :
    ¬∀ pid archive (cache : Cache) aliasName files facts,
      @exportBundle plainFormats aliasName files = .ok (archive, facts) →
        ¬Holds cache.tree aliasName → @Transacts plainFormats pid archive cache.tree aliasName files := by
  intro hall
  have hvalid : validateRelative "x".toList "bundle alias" = .ok () := by decide +kernel
  have hrows : bundleFiles 0 fileInFile.rows =
      .ok [⟨"a".toList, (hashFile []).1, 0⟩, ⟨"a/b".toList, (hashFile []).1, 0⟩] := by
    decide +kernel
  obtain ⟨archive, facts, hexport⟩ : ∃ archive facts,
      @exportBundle plainFormats "x".toList fileInFile = .ok (archive, facts) := by
    apply exists_export
    unfold exportBundle
    rw [hrows, hvalid, if_neg (by decide), if_neg (by decide)]
    simp only [Bind.bind, Except.bind]
    rw [mergeSort_rows (bundleFiles_ok hrows).1]
    decide +kernel
  have hnotheld := not_holds_emptyCache "x".toList (by decide)
  have hportable := ((@transacts_iff plainFormats 7 archive emptyCache _ _ _ hexport hnotheld).mp
    (hall 7 archive emptyCache _ _ _ hexport hnotheld)).1
  exact hportable.apart _ List.mem_cons_self _ (List.mem_cons_of_mem _ List.mem_cons_self)
    (by decide) (by decide)

end Plain

end Toktier.Facade.Bundle
