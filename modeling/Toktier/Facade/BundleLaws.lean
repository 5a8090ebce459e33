import Toktier.Facade.Bundle
import Toktier.Lib.Decode

/-!
# What the passes over a bundle establish

A name that is written as its path is displayed spells that path. What an archive is extracted to
holds its files and nothing else, which succeeds when no file is in the way of another; an
exported archive holds the sources under their names; and an installed tree authenticates by its
files alone.

## Main definitions

* `Relative`: the names that are let through.
* `Grown`: a tree in which each directory is on the way to a file.
* `contents`: the files of an archive.

## Main results

* `names_joined`: what a displayed path spells.
* `createAll_eq_ok`: when the files of an archive can be extracted, and what is there then.
* `verifyInstalled_eq_ok`: when a tree authenticates.
* `exportBundle_ok`: what is in an exported archive.
-/
namespace Toktier.Facade.Bundle

open Toktier.Lib

/-! ## Names -/

theorem not_mem_of_mem_splitOn {α : Type} [DecidableEq α] {a : α} {xs piece : List α}
    (h : piece ∈ xs.splitOn a) : a ∉ piece := by
  induction xs generalizing piece with
  | nil =>
      rw [List.splitOn_nil, List.mem_singleton] at h
      rw [h]
      exact List.not_mem_nil
  | cons x xs ih =>
      rw [List.splitOn_cons_eq_if_modifyHead] at h
      split_ifs at h with hx
      · obtain rfl | h := List.mem_cons.mp h
        · exact List.not_mem_nil
        · exact ih h
      · obtain ⟨y, ys, hys⟩ := List.exists_cons_of_ne_nil (List.splitOn_ne_nil a xs)
        rw [hys, List.modifyHead_cons, List.mem_cons] at h
        rw [hys] at ih
        obtain rfl | h := h
        · rw [List.mem_cons, not_or]
          exact ⟨fun hax => hx (beq_iff_eq.mpr hax.symm), ih List.mem_cons_self⟩
        · exact ih (List.mem_cons_of_mem y h)

/-- The names that are let through. -/
def Relative (name : Text) : Prop :=
  ¬(name = [] ∨ '\\' ∈ name ∨ '\x00' ∈ name ∨ '\r' ∈ name ∨ '\n' ∈ name ∨
    name.head? = some '/' ∨ ∃ c ∈ components name, c.name? = none)

theorem validateRelative_eq_ok {name : Text} {what : String} {u : Unit} :
    validateRelative name what = .ok u ↔ Relative name := by
  unfold validateRelative Relative
  split_ifs with h
  · exact iff_of_false nofun fun hno => hno h
  · exact iff_of_true rfl h

theorem safeJoin_eq_ok {name : Text} {p : List Name} :
    safeJoin name = .ok p ↔ Relative name ∧ names name = p := by
  unfold safeJoin
  rw [bind_eq_ok]
  constructor
  · rintro ⟨u, hu, hp⟩
    exact ⟨validateRelative_eq_ok.mp hu, Except.ok.inj hp⟩
  · rintro ⟨hname, rfl⟩
    exact ⟨(), validateRelative_eq_ok.mpr hname, rfl⟩

section Joined

variable {p q : List Name} {name : Text}

theorem slash_not_mem {p : List Name} : ∀ piece ∈ p.map Name.text, '/' ∉ piece := by
  intro piece h
  obtain ⟨n, -, rfl⟩ := List.mem_map.mp h
  exact n.valid.2.1

theorem splitOn_joined (hp : p ≠ []) : (joined p).splitOn '/' = p.map Name.text :=
  List.splitOn_intercalate '/' slash_not_mem (by simpa using hp)

theorem joined_injective (hp : p ≠ []) (hq : q ≠ []) (h : joined p = joined q) : p = q := by
  have hsplit := (splitOn_joined hp).symm.trans ((congrArg (List.splitOn '/') h).trans
    (splitOn_joined hq))
  refine List.map_injective_iff.mpr (fun a b hab => ?_) hsplit
  cases a
  cases b
  cases hab
  rfl

theorem head?_joined : (joined p).head? ≠ some '/' := by
  cases p with
  | nil => exact nofun
  | cons n p =>
      obtain ⟨c, text, htext⟩ := List.exists_cons_of_ne_nil n.valid.1
      have hc : c ≠ '/' := fun hc => n.valid.2.1 (by rw [htext, hc]; exact List.mem_cons_self)
      intro h
      unfold joined at h
      rw [List.map_cons, htext] at h
      cases p <;> exact hc (Option.some.inj h)

theorem component_text (n : Name) (first : Bool) :
    component first n.text = some (.Normal n) := dif_pos n.valid

theorem filterMap_component_text (p : List Name) :
    (p.map Name.text).filterMap (component false) = p.map .Normal := by
  rw [List.filterMap_map]
  exact List.filterMap_eq_map_iff_forall_eq_some.mpr fun n _ => component_text n false

/-- A path that is displayed is read as it is. -/
theorem components_joined (hp : p ≠ []) : components (joined p) = p.map .Normal := by
  unfold components
  rw [if_neg head?_joined, splitOn_joined hp, List.nil_append]
  cases p with
  | nil => exact absurd rfl hp
  | cons n p =>
      rw [List.map_cons]
      dsimp only
      rw [component_text, filterMap_component_text]
      rfl

/-- A slash at the end adds no component. -/
theorem components_joined_slash (hp : p ≠ []) :
    components (joined p ++ ['/']) = p.map .Normal := by
  have hhead : (joined p ++ ['/']).head? ≠ some '/' := by
    have hjoined : joined p ≠ [] := by
      intro h
      have := splitOn_joined hp
      rw [h, List.splitOn_nil] at this
      cases p with
      | nil => exact hp rfl
      | cons n p =>
          exact n.valid.1 (List.cons.inj this).1.symm
    rw [List.head?_append_of_ne_nil _ hjoined]
    exact head?_joined
  unfold components
  rw [if_neg hhead, List.splitOn_append_cons_self, splitOn_joined hp, List.nil_append,
    List.splitOn_nil]
  cases p with
  | nil => exact absurd rfl hp
  | cons n p =>
      rw [List.map_cons, List.cons_append]
      dsimp only
      rw [component_text, List.filterMap_append, filterMap_component_text]
      have hnil : [([] : Text)].filterMap (component false) = [] := by decide
      rw [hnil, List.append_nil]
      rfl

theorem filterMap_name? (p : List Name) : (p.map Component.Normal).filterMap Component.name? = p := by
  rw [List.filterMap_map]
  exact List.filterMap_some

/-- What a displayed path spells. -/
theorem names_joined (hp : p ≠ []) : names (joined p) = p := by
  rw [names, components_joined hp, filterMap_name?]

theorem names_joined_slash (hp : p ≠ []) : names (joined p ++ ['/']) = p := by
  rw [names, components_joined_slash hp, filterMap_name?]

/-- A name that is let through spells a path. -/
theorem names_ne_nil (h : Relative name) : names name ≠ [] := by
  intro hnil
  obtain ⟨hne, hrest⟩ := not_or.mp h
  have hhead : name.head? ≠ some '/' := fun hh => hrest (by simp [hh])
  have hnormal : ∀ c ∈ components name, c.name? ≠ none := fun c hc hno =>
    h (.inr (.inr (.inr (.inr (.inr (.inr ⟨c, hc, hno⟩))))))
  have hcomponents : components name = [] := by
    refine List.eq_nil_iff_forall_not_mem.mpr fun c hc => ?_
    obtain ⟨n, hn⟩ := Option.ne_none_iff_exists'.mp (hnormal c hc)
    have : n ∈ names name := List.mem_filterMap.mpr ⟨c, hc, hn⟩
    rw [hnil] at this
    exact List.not_mem_nil this
  obtain ⟨c, text, rfl⟩ := List.exists_cons_of_ne_nil hne
  have hc : c ≠ '/' := fun hc => hhead (congrArg some hc)
  obtain ⟨piece, rest, hsplit⟩ := List.exists_cons_of_ne_nil (List.splitOn_ne_nil '/' text)
  have hpieces : (c :: text).splitOn '/' = (c :: piece) :: rest := by
    rw [List.splitOn_cons_eq_if_modifyHead, if_neg (by simpa using hc), hsplit,
      List.modifyHead_cons]
  have hslash : '/' ∉ c :: piece :=
    not_mem_of_mem_splitOn (hpieces ▸ List.mem_cons_self)
  unfold components at hcomponents
  rw [if_neg hhead, List.nil_append, hpieces] at hcomponents
  have hfirst : component true (c :: piece) ≠ none := by
    unfold component
    split_ifs with hvalid hdots hdot
    · exact nofun
    · exact nofun
    · exact nofun
    · exact absurd ⟨nofun, hslash, fun h => hdot ⟨h, rfl⟩, hdots⟩ hvalid
  obtain ⟨x, hx⟩ := Option.ne_none_iff_exists'.mp hfirst
  dsimp only at hcomponents
  rw [hx] at hcomponents
  cases hcomponents

/-- A path that is displayed may be the name of a file. -/
theorem spellsDirectory_joined (hp : p ≠ []) : spellsDirectory (joined p) = false := by
  have hpiece {text : Text} (hmem : text ∈ (joined p).splitOn '/') : Name.Valid text := by
    rw [splitOn_joined hp] at hmem
    obtain ⟨n, -, rfl⟩ := List.mem_map.mp hmem
    exact n.valid
  rw [Bool.eq_false_iff]
  intro h
  unfold spellsDirectory at h
  rw [Bool.or_eq_true, decide_eq_true_iff, List.isSuffixOf_iff_suffix] at h
  obtain h | ⟨text, h⟩ := h
  · obtain ⟨text, h⟩ := List.getLast?_eq_some_iff.mp h
    have hmem : ([] : Text) ∈ (joined p).splitOn '/' := by
      rw [h, List.splitOn_append_cons_self, List.splitOn_nil]
      exact List.mem_append_right _ List.mem_cons_self
    exact (hpiece hmem).1 rfl
  · have hmem : ['.'] ∈ (joined p).splitOn '/' := by
      rw [← h, List.splitOn_append_cons_self]
      exact List.mem_append_right _ (by decide)
    exact (hpiece hmem).2.2.1 rfl

end Joined

/-! ## Extraction -/

/-- Neither of two paths is on the way to the other. -/
def Apart (p q : List Name) : Prop := ¬p <+: q ∧ ¬q <+: p

theorem Apart.symm {p q : List Name} (h : Apart p q) : Apart q p := And.symm h

/-- Each directory is on the way to a file. -/
def Grown (t : Tree) : Prop :=
  ∀ q, q ≠ [] → t.IsDir q → ∃ r a, q <+: r ∧ t.get r = some (.file a)

section Create

variable {t t' : Tree} {name : Text} {data : List UInt8} {p q : List Name} {a : Leaf}

theorem ensurePrivateDirectory_eq_ok :
    ensurePrivateDirectory t p = .ok t' ↔ t.mkdirs p = some t' := by
  unfold ensurePrivateDirectory
  split
  · rename_i a hget
    refine iff_of_false nofun fun h => ?_
    exact FileTree.exists_mkdirs_iff.mp ⟨t', h⟩ p a (List.prefix_refl p) hget
  · cases t.mkdirs p with
    | none => exact iff_of_false nofun nofun
    | some root =>
        constructor
        · exact fun h => congrArg some (Except.ok.inj h)
        · exact fun h => congrArg Except.ok (Option.some.inj h)

theorem createNew_eq_ok :
    createNew t name data = .ok t' ↔ Relative name ∧ spellsDirectory name = false ∧
      ∃ t₁, t.mkdirs (names name).dropLast = some t₁ ∧
        t₁.place (names name) (.file (.File data)) = some t' := by
  unfold createNew
  rw [bind_eq_ok]
  constructor
  · rintro ⟨target, htarget, h⟩
    obtain ⟨hname, rfl⟩ := safeJoin_eq_ok.mp htarget
    obtain ⟨t₁, ht₁, h⟩ := bind_eq_ok.mp h
    split_ifs at h with hspells
    refine ⟨hname, Bool.eq_false_iff.mpr hspells, t₁, ensurePrivateDirectory_eq_ok.mp ht₁, ?_⟩
    cases hplace : t₁.place (names name) (.file (.File data)) with
    | none =>
        rw [hplace] at h
        cases h
    | some t₂ =>
        rw [hplace] at h
        exact congrArg some (Except.ok.inj h)
  · rintro ⟨hname, hspells, t₁, ht₁, hplace⟩
    refine ⟨names name, safeJoin_eq_ok.mpr ⟨hname, rfl⟩, ?_⟩
    rw [ensurePrivateDirectory_eq_ok.mpr ht₁, ok_bind, if_neg (Bool.eq_false_iff.mp hspells), hplace]

theorem dropLast_of_strict (h : q <+: p) (hne : q ≠ p) : q <+: p.dropLast := by
  obtain ⟨r, rfl⟩ := h
  have hr : r ≠ [] := fun hr => hne (by rw [hr, List.append_nil])
  rw [List.dropLast_append_of_ne_nil hr]
  exact List.prefix_append _ _

/-- The files after a new one. -/
theorem get_createNew_file (h : createNew t name data = .ok t') :
    t'.get q = some (.file a) ↔
      t.get q = some (.file a) ∨ q = names name ∧ a = .File data := by
  obtain ⟨hname, -, t₁, hmk, hplace⟩ := createNew_eq_ok.mp h
  obtain ⟨-, hnone, -⟩ := FileTree.exists_place_iff.mp ⟨t', hplace⟩
  rw [← FileTree.get_mkdirs_file hmk]
  by_cases hpq : names name <+: q
  · obtain ⟨r, rfl⟩ := hpq
    have hbefore : t₁.get (names name ++ r) = none :=
      FileTree.get_of_prefix (List.prefix_append _ r) hnone
    rw [FileTree.get_place hplace, hbefore, or_iff_right nofun]
    cases r with
    | nil => simp [eq_comm]
    | cons n r => exact iff_of_false nofun fun h => by simp at h
  by_cases hqp : q <+: names name
  · have hne : q ≠ names name := fun h => hpq (h ▸ List.prefix_refl _)
    obtain ⟨⟨e, he⟩, e', he'⟩ := FileTree.isDir_place_of_prefix hplace hqp hne
    rw [he, he']
    refine iff_of_false nofun ?_
    rintro (h | ⟨h, -⟩)
    · cases h
    · exact hne h
  · rw [FileTree.get_place_of_not_prefix hplace hpq hqp]
    refine (or_iff_left ?_).symm
    rintro ⟨rfl, -⟩
    exact hpq (List.prefix_refl _)

/-- The directories after a new file. -/
theorem isDir_createNew (h : createNew t name data = .ok t') :
    t'.IsDir q ↔ t.IsDir q ∨ q <+: (names name).dropLast := by
  obtain ⟨hname, -, t₁, hmk, hplace⟩ := createNew_eq_ok.mp h
  obtain ⟨-, hnone, -⟩ := FileTree.exists_place_iff.mp ⟨t', hplace⟩
  rw [← FileTree.isDir_mkdirs hmk]
  by_cases hpq : names name <+: q
  · obtain ⟨r, rfl⟩ := hpq
    have hbefore : t₁.get (names name ++ r) = none :=
      FileTree.get_of_prefix (List.prefix_append _ r) hnone
    unfold FileTree.IsDir
    rw [FileTree.get_place hplace, hbefore]
    cases r <;> simp [FileTree.Node.get]
  by_cases hqp : q <+: names name
  · have hne : q ≠ names name := fun h => hpq (h ▸ List.prefix_refl _)
    obtain ⟨hbefore, hafter⟩ := FileTree.isDir_place_of_prefix hplace hqp hne
    exact iff_of_true hafter hbefore
  · unfold FileTree.IsDir
    rw [FileTree.get_place_of_not_prefix hplace hpq hqp]

theorem distinct_createNew (h : createNew t name data = .ok t') (ht : t.Distinct) :
    t'.Distinct := by
  obtain ⟨-, -, t₁, hmk, hplace⟩ := createNew_eq_ok.mp h
  exact FileTree.distinct_place (x := .file (.File data)) (FileTree.distinct_mkdirs ht hmk) trivial
    hplace

theorem grown_createNew (h : createNew t name data = .ok t') (ht : Grown t) : Grown t' := by
  intro q hq hdir
  obtain hdir | hbegins := (isDir_createNew h).mp hdir
  · obtain ⟨r, a, hqr, hr⟩ := ht q hq hdir
    exact ⟨r, a, hqr, (get_createNew_file h).mpr (.inl hr)⟩
  · exact ⟨names name, .File data, hbegins.trans (List.dropLast_prefix _),
      (get_createNew_file h).mpr (.inr ⟨rfl, rfl⟩)⟩

/-- A new file can be created when it is apart from the files that are there. -/
theorem exists_createNew_iff (ht : Grown t) :
    (∃ t', createNew t name data = .ok t') ↔ Relative name ∧ spellsDirectory name = false ∧
      ∀ q a, t.get q = some (.file a) → Apart q (names name) := by
  constructor
  · rintro ⟨t', h⟩
    obtain ⟨hname, hspells, t₁, hmk, hplace⟩ := createNew_eq_ok.mp h
    obtain ⟨-, hnone, -⟩ := FileTree.exists_place_iff.mp ⟨t', hplace⟩
    refine ⟨hname, hspells, fun q a hq => ⟨fun hqp => ?_, fun hpq => ?_⟩⟩
    · by_cases hne : q = names name
      · have := (FileTree.get_mkdirs_file hmk).mpr hq
        rw [hne, hnone] at this
        cases this
      · exact FileTree.exists_mkdirs_iff.mp ⟨t₁, hmk⟩ q a (dropLast_of_strict hqp hne) hq
    · have := (FileTree.get_mkdirs_file hmk).mpr hq
      rw [FileTree.get_of_prefix hpq hnone] at this
      cases this
  · rintro ⟨hname, hspells, hapart⟩
    have hne := names_ne_nil hname
    obtain ⟨t₁, hmk⟩ := FileTree.exists_mkdirs_iff.mpr
      fun q a (hq : q <+: (names name).dropLast) hget =>
        (hapart q a hget).1 (hq.trans (List.dropLast_prefix _))
    have hnone : t₁.get (names name) = none := by
      cases hget : t₁.get (names name) with
      | none => rfl
      | some x =>
          cases x with
          | file a => exact absurd (List.prefix_refl _) (hapart _ a ((FileTree.get_mkdirs_file hmk).mp hget)).1
          | dir e =>
              obtain hdir | hbegins := (FileTree.isDir_mkdirs hmk).mp ⟨e, hget⟩
              · obtain ⟨r, a, hqr, hr⟩ := ht _ hne hdir
                exact absurd hqr (hapart r a hr).2
              · have hlength := hbegins.length_le
                rw [List.length_dropLast] at hlength
                have := List.length_pos_of_ne_nil hne
                omega
    obtain ⟨t', hplace⟩ := FileTree.exists_place_iff.mpr
      ⟨hne, hnone, (FileTree.isDir_mkdirs hmk).mpr (.inr (List.prefix_refl _))⟩
    exact ⟨t', createNew_eq_ok.mpr ⟨hname, hspells, t₁, hmk, hplace⟩⟩

end Create

/-- Create the files of an archive below a destination. -/
def createAll (t : Tree) (files : List (Text × List UInt8)) : Except BundleError Tree :=
  files.foldlM (fun t file => createNew t file.1 file.2) t

section CreateAll

variable {t t' : Tree} {files : List (Text × List UInt8)} {q : List Name} {a : Leaf}

theorem createAll_cons {file : Text × List UInt8} :
    createAll t (file :: files) = createNew t file.1 file.2 >>= (createAll · files) :=
  List.foldlM_cons

/-- What is extracted to a destination is added to its files. -/
theorem get_createAll_file (h : createAll t files = .ok t') :
    t'.get q = some (.file a) ↔
      t.get q = some (.file a) ∨ ∃ file ∈ files, names file.1 = q ∧ .File file.2 = a := by
  induction files generalizing t with
  | nil =>
      cases h
      simp
  | cons file files ih =>
      rw [createAll_cons] at h
      obtain ⟨t₁, ht₁, h⟩ := bind_eq_ok.mp h
      rw [ih h, get_createNew_file ht₁, List.exists_mem_cons_iff, or_assoc]
      exact or_congr_right (or_congr_left (and_congr eq_comm eq_comm))

theorem distinct_createAll (h : createAll t files = .ok t') (ht : t.Distinct) : t'.Distinct := by
  induction files generalizing t with
  | nil =>
      cases h
      exact ht
  | cons file files ih =>
      rw [createAll_cons] at h
      obtain ⟨t₁, ht₁, h⟩ := bind_eq_ok.mp h
      exact ih h (distinct_createNew ht₁ ht)

/-- The files of an archive can be extracted when each is apart from the others. -/
theorem exists_createAll_iff (ht : Grown t) :
    (∃ t', createAll t files = .ok t') ↔
      (∀ file ∈ files, Relative file.1 ∧ spellsDirectory file.1 = false ∧
        ∀ q a, t.get q = some (.file a) → Apart q (names file.1)) ∧
      files.Pairwise fun f g => Apart (names f.1) (names g.1) := by
  induction files generalizing t with
  | nil => exact iff_of_true ⟨t, rfl⟩ ⟨nofun, .nil⟩
  | cons file files ih =>
      rw [createAll_cons, List.forall_mem_cons, List.pairwise_cons]
      constructor
      · rintro ⟨t', h⟩
        obtain ⟨t₁, ht₁, h⟩ := bind_eq_ok.mp h
        obtain ⟨hfiles, hpairs⟩ := (ih (grown_createNew ht₁ ht)).mp ⟨t', h⟩
        refine ⟨⟨(exists_createNew_iff ht).mp ⟨t₁, ht₁⟩, fun g hg => ?_⟩, fun g hg => ?_, hpairs⟩
        · obtain ⟨hname, hspells, hapart⟩ := hfiles g hg
          exact ⟨hname, hspells, fun q a hq =>
            hapart q a ((get_createNew_file ht₁).mpr (.inl hq))⟩
        · exact (hfiles g hg).2.2 _ _ ((get_createNew_file ht₁).mpr (.inr ⟨rfl, rfl⟩))
      · rintro ⟨⟨hfile, hfiles⟩, hhead, hpairs⟩
        obtain ⟨t₁, ht₁⟩ : ∃ t₁, createNew t file.1 file.2 = .ok t₁ :=
          (exists_createNew_iff ht).mpr hfile
        obtain ⟨t', h⟩ := (ih (grown_createNew ht₁ ht)).mpr ⟨fun g hg => by
          obtain ⟨hname, hspells, hapart⟩ := hfiles g hg
          refine ⟨hname, hspells, fun q a hq => ?_⟩
          obtain hq | ⟨rfl, -⟩ := (get_createNew_file ht₁).mp hq
          · exact hapart q a hq
          · exact hhead g hg, hpairs⟩
        exact ⟨t', bind_eq_ok.mpr ⟨t₁, ht₁, h⟩⟩

end CreateAll

/-! ## The second pass -/

/-- The file that a member is, unless it is the manifest. -/
def Member.file? (member : Member) : Option (Text × List UInt8) :=
  if member.entryType = .Regular then
    member.name.bind fun name => if name = MANIFEST_NAME then none else some (name, member.data)
  else none

/-- The files of an archive. -/
def contents (archive : Archive) : List (Text × List UInt8) :=
  archive.filterMap fun member => member.bind Member.file?

section Members

variable {rows : List BundleFile} {t t' : Tree} {archive : Archive} {seen seen' : List Text}
  {destination : Option Tree}

theorem contents_cons_some {member : Member} {file : Text × List UInt8}
    (h : member.file? = some file) : contents (some member :: archive) = file :: contents archive :=
  List.filterMap_cons_some h

theorem contents_cons_none {member : Member} (h : member.file? = none) :
    contents (some member :: archive) = contents archive :=
  List.filterMap_cons_none h

/-- How the second pass treats its first member. -/
inductive MemberCases (member : Member) (rest : Archive) : Prop
  /-- It is not a file of the bundle. -/
  | skipped (hfile : member.file? = none)
      (hverify : ∀ rows destination seen,
        verifyMembers rows destination seen (some member :: rest) =
          verifyMembers rows destination seen rest)
  /-- Its name cannot be read. -/
  | unread (hverify : ∀ rows destination seen x,
      verifyMembers rows destination seen (some member :: rest) ≠ .ok x)
  | file (name : Text) (hname : name ≠ MANIFEST_NAME) (hfile : member.file? = some (name, member.data))
      (hverify : ∀ rows destination seen x,
        verifyMembers rows destination seen (some member :: rest) = .ok x ↔
          ∃ row, rows.find? (fun row => row.path = name) = some row ∧ name ∉ seen ∧
            copyAndHash member.data row = .ok () ∧
            ∃ destination', extract destination name member.data = .ok destination' ∧
              verifyMembers rows destination' (name :: seen) rest = .ok x)

theorem memberCases (member : Member) (rest : Archive) : MemberCases member rest := by
  by_cases htype : member.entryType = .Regular
  · cases hname : member.name with
    | none =>
        refine .unread fun rows destination seen x h => ?_
        rw [verifyMembers, if_neg (not_not.mpr htype), hname] at h
        cases h
    | some name =>
        by_cases hmanifest : name = MANIFEST_NAME
        · refine .skipped ?_ fun rows destination seen => ?_
          · rw [Member.file?, if_pos htype, hname, Option.bind_some, if_pos hmanifest]
          · rw [verifyMembers, if_neg (not_not.mpr htype), hname]
            exact if_pos hmanifest
        · refine .file name hmanifest ?_ fun rows destination seen x => ?_
          · rw [Member.file?, if_pos htype, hname, Option.bind_some, if_neg hmanifest]
          · rw [verifyMembers, if_neg (not_not.mpr htype), hname]
            dsimp only
            rw [if_neg hmanifest]
            cases hrow : rows.find? fun row => row.path = name with
            | none => exact iff_of_false nofun fun ⟨row, h, _⟩ => nomatch h
            | some row =>
                dsimp only
                split_ifs with hseen
                · exact iff_of_false nofun fun ⟨_, _, h, _⟩ => h hseen
                · rw [bind_eq_ok]
                  constructor
                  · rintro ⟨destination', hd, h⟩
                    obtain ⟨u, hcopy, h⟩ := bind_eq_ok.mp h
                    exact ⟨row, rfl, hseen, hcopy, destination', hd, h⟩
                  · rintro ⟨row', hrow', -, hcopy, destination', hd, h⟩
                    cases hrow'
                    exact ⟨destination', hd, bind_eq_ok.mpr ⟨(), hcopy, h⟩⟩
  · refine .skipped ?_ fun rows destination seen => ?_
    · rw [Member.file?, if_neg htype]
    · rw [verifyMembers, if_pos htype]

/-- Without a destination, the pass only looks at the files. -/
theorem verifyMembers_none
    (h : verifyMembers rows none seen archive = .ok (destination, seen')) :
    destination = none ∧ seen' = ((contents archive).map Prod.fst).reverse ++ seen ∧
      (∀ file ∈ contents archive, ∃ row, rows.find? (fun row => row.path = file.1) = some row ∧
        copyAndHash file.2 row = .ok ()) ∧ (seen.Nodup → seen'.Nodup) := by
  induction archive generalizing seen with
  | nil =>
      cases h
      exact ⟨rfl, rfl, nofun, id⟩
  | cons member? archive ih =>
      cases member? with
      | none => cases h
      | some member =>
          cases memberCases member archive with
          | skipped hfile hverify =>
              rw [hverify] at h
              rw [contents_cons_none hfile]
              exact ih h
          | unread hverify => exact absurd h (hverify _ _ _ _)
          | file name hname hfile hverify =>
              obtain ⟨row, hrow, hseen, hcopy, destination', hd, h⟩ := (hverify _ _ _ _).mp h
              cases hd
              obtain ⟨hnone, heq, hfiles, hnodup⟩ := ih h
              rw [contents_cons_some hfile]
              refine ⟨hnone, ?_, List.forall_mem_cons.mpr ⟨⟨row, hrow, hcopy⟩, hfiles⟩, fun hs =>
                hnodup (List.nodup_cons.mpr ⟨hseen, hs⟩)⟩
              rw [heq, List.map_cons, List.reverse_cons, List.append_assoc]
              rfl

/-- With a destination, it extracts the same files there. -/
theorem verifyMembers_some :
    verifyMembers rows (some t) seen archive = .ok (destination, seen') ↔
      ∃ t', destination = some t' ∧ verifyMembers rows none seen archive = .ok (none, seen') ∧
        createAll t (contents archive) = .ok t' := by
  induction archive generalizing t seen with
  | nil =>
      constructor
      · intro h
        cases h
        exact ⟨t, rfl, rfl, rfl⟩
      · rintro ⟨t', rfl, h, ht'⟩
        cases h
        cases ht'
        rfl
  | cons member? archive ih =>
      cases member? with
      | none => exact iff_of_false nofun fun ⟨_, _, h, _⟩ => nomatch h
      | some member =>
          cases memberCases member archive with
          | skipped hfile hverify =>
              rw [hverify, hverify, contents_cons_none hfile]
              exact ih
          | unread hverify =>
              exact iff_of_false (hverify _ _ _ _) fun ⟨_, _, h, _⟩ => hverify _ _ _ _ h
          | file name hname hfile hverify =>
              rw [hverify, hverify, contents_cons_some hfile, createAll_cons]
              constructor
              · rintro ⟨row, hrow, hseen, hcopy, destination', hd, h⟩
                cases hcreate : createNew t name member.data with
                | error e =>
                    rw [extract, hcreate] at hd
                    cases hd
                | ok t₁ =>
                    rw [extract, hcreate] at hd
                    cases hd
                    obtain ⟨t', ht', hnone, hall⟩ := ih.mp h
                    exact ⟨t', ht', ⟨row, hrow, hseen, hcopy, none, rfl, hnone⟩, hall⟩
              · rintro ⟨t', ht', ⟨row, hrow, hseen, hcopy, destination', hd, hnone⟩, hall⟩
                cases hd
                obtain ⟨t₁, ht₁, hall⟩ := bind_eq_ok.mp hall
                refine ⟨row, hrow, hseen, hcopy, some t₁, ?_, ih.mpr ⟨t', ht', hnone, hall⟩⟩
                rw [extract, ht₁]
                rfl

end Members

section Archives

variable {archive : Archive} {manifest : BundleManifest}

/-- Extraction is verification, and creating the files. -/
theorem verifyArchiveFiles_some {destination : Option Tree} :
    verifyArchiveFiles archive manifest (some .nil) = .ok destination ↔
      ∃ staged, destination = some staged ∧
        verifyArchiveFiles archive manifest none = .ok none ∧
        createAll .nil (contents archive) = .ok staged := by
  unfold verifyArchiveFiles
  simp only [bind_eq_ok, Prod.exists]
  constructor
  · rintro ⟨d, seen, h, hd⟩
    obtain ⟨t', rfl, hnone, hall⟩ := verifyMembers_some.mp h
    split_ifs at hd with hlen
    cases hd
    exact ⟨t', rfl, ⟨none, seen, hnone, if_neg hlen⟩, hall⟩
  · rintro ⟨staged, rfl, ⟨d, seen, hnone, hd⟩, hall⟩
    split_ifs at hd with hlen
    cases hd
    exact ⟨some staged, seen, verifyMembers_some.mpr ⟨staged, rfl, hnone, hall⟩, if_neg hlen⟩

/-- The files of a verified archive are those of its manifest. -/
theorem verifyArchiveFiles_none {destination : Option Tree}
    (h : verifyArchiveFiles archive manifest none = .ok destination) :
    destination = none ∧ ((contents archive).map Prod.fst).Nodup ∧
      (contents archive).length = manifest.files.length ∧
      ∀ file ∈ contents archive, ∃ row,
        manifest.files.find? (fun row => row.path = file.1) = some row ∧
          copyAndHash file.2 row = .ok () := by
  unfold verifyArchiveFiles at h
  obtain ⟨⟨d, seen⟩, hverify, h⟩ := bind_eq_ok.mp h
  obtain ⟨rfl, hseen, hfiles, hnodup⟩ := verifyMembers_none hverify
  dsimp only at h
  split_ifs at h with hlen
  cases h
  rw [List.append_nil] at hseen
  subst hseen
  refine ⟨rfl, List.nodup_reverse.mp (hnodup .nil), ?_, hfiles⟩
  rw [not_not, List.length_reverse, List.length_map] at hlen
  exact hlen

end Archives

/-! ## Installed trees -/

theorem forM_eq_ok {ε α : Type} {f : α → Except ε Unit} {xs : List α} :
    xs.forM f = .ok () ↔ ∀ x ∈ xs, f x = .ok () := by
  induction xs with
  | nil => exact iff_of_true rfl nofun
  | cons x xs ih =>
      have hcons : (x :: xs).forM f = f x >>= fun _ => xs.forM f := rfl
      rw [hcons, bind_eq_ok, List.forall_mem_cons, ← ih]
      exact ⟨fun ⟨_, hx, hxs⟩ => ⟨hx, hxs⟩, fun ⟨hx, hxs⟩ => ⟨(), hx, hxs⟩⟩

/-- The files of a tree are those of a manifest, and what the cache writes. -/
structure Authentic (root : Tree) (manifest : BundleManifest) : Prop where
  declared : ∀ p a, root.get p = some (.file a) → ∃ data, a = .File data ∧
    (joined p = VERIFIED_MARKER_NAME ∨ ∃ row ∈ manifest.files, row.path = joined p)
  present : ∀ row ∈ manifest.files, Relative row.path ∧ ∃ p data,
    root.get p = some (.file (.File data)) ∧ joined p = row.path ∧
      row.path ≠ VERIFIED_MARKER_NAME ∧ hashFile data = (row.sha256, row.size)

section Authentic

variable {root : Tree} {manifest : BundleManifest} {rows : List BundleFile}

theorem unexpected?_eq_none {p : List Name} {a : Leaf} :
    unexpected? rows (p, a) = none ↔ ∃ data, a = .File data ∧
      (joined p = VERIFIED_MARKER_NAME ∨ ∃ row ∈ rows, row.path = joined p) := by
  unfold unexpected?
  cases a with
  | Special => exact iff_of_false nofun fun ⟨_, h, _⟩ => nomatch h
  | File data =>
      dsimp only
      have hany : rows.any (fun row => row.path = joined p) = true ↔
          ∃ row ∈ rows, row.path = joined p := by
        simp
      split_ifs with hmarker hrow
      · exact iff_of_true rfl ⟨data, rfl, .inl hmarker⟩
      · exact iff_of_true rfl ⟨data, rfl, .inr (hany.mp hrow)⟩
      · refine iff_of_false nofun ?_
        rintro ⟨data', -, h | h⟩
        · exact hmarker h
        · exact hrow (hany.mpr h)

theorem observed?_eq_some {p : List Name} {a : Leaf} {name : Text} :
    observed? rows (p, a) = some name ↔ joined p = name ∧ (∃ data, a = .File data) ∧
      name ≠ VERIFIED_MARKER_NAME ∧ ∃ row ∈ rows, row.path = name := by
  unfold observed?
  cases a with
  | Special => exact iff_of_false nofun fun ⟨_, ⟨_, h⟩, _⟩ => nomatch h
  | File data =>
      dsimp only
      have hany : rows.any (fun row => row.path = joined p) = true ↔
          ∃ row ∈ rows, row.path = joined p := by
        simp
      split_ifs with hmarker hrow
      · refine iff_of_false nofun ?_
        rintro ⟨rfl, -, h, -⟩
        exact h hmarker
      · constructor
        · intro h
          cases h
          exact ⟨rfl, ⟨data, rfl⟩, hmarker, hany.mp hrow⟩
        · rintro ⟨rfl, -⟩
          rfl
      · refine iff_of_false nofun ?_
        rintro ⟨rfl, -, -, h⟩
        exact hrow (hany.mpr h)

theorem ne_nil_of_get_file {p : List Name} {a : Leaf} (h : root.get p = some (.file a)) : p ≠ [] := by
  rintro rfl
  cases h

theorem mem_observed (hroot : root.Distinct) {name : Text} :
    name ∈ root.files.filterMap (observed? rows) ↔
      (∃ p data, root.get p = some (.file (.File data)) ∧ joined p = name) ∧
        name ≠ VERIFIED_MARKER_NAME ∧ ∃ row ∈ rows, row.path = name := by
  rw [List.mem_filterMap]
  constructor
  · rintro ⟨⟨p, a⟩, hmem, h⟩
    obtain ⟨hname, ⟨data, rfl⟩, hrest⟩ := observed?_eq_some.mp h
    exact ⟨⟨p, data, (FileTree.mem_files hroot).mp hmem, hname⟩, hrest⟩
  · rintro ⟨⟨p, data, hget, hname⟩, hrest⟩
    exact ⟨(p, .File data), (FileTree.mem_files hroot).mpr hget,
      observed?_eq_some.mpr ⟨hname, ⟨data, rfl⟩, hrest⟩⟩

theorem checkInstalledRow_eq_ok {observed : List Text} {row : BundleFile} :
    checkInstalledRow root observed row = .ok () ↔ Relative row.path ∧ row.path ∈ observed ∧
      ∃ data, root.get (names row.path) = some (.file (.File data)) ∧
        hashFile data = (row.sha256, row.size) := by
  unfold checkInstalledRow
  rw [bind_eq_ok]
  constructor
  · rintro ⟨path, hpath, h⟩
    obtain ⟨hrelative, rfl⟩ := safeJoin_eq_ok.mp hpath
    split_ifs at h with hmem
    refine ⟨hrelative, hmem, ?_⟩
    split at h
    · cases h
    · rename_i data hget
      dsimp only at h
      split_ifs at h with hsame
      obtain ⟨hsize, hdigest⟩ := not_or.mp hsame
      exact ⟨data, hget, Prod.ext (not_not.mp hdigest) (not_not.mp hsize)⟩
    · cases h
  · rintro ⟨hrelative, hmem, data, hget, hhash⟩
    refine ⟨names row.path, safeJoin_eq_ok.mpr ⟨hrelative, rfl⟩, ?_⟩
    rw [if_neg (not_not.mpr hmem), hget]
    dsimp only
    rw [hhash]
    exact if_neg (by simp)

/-- When a tree authenticates. -/
theorem verifyInstalled_eq_ok (hroot : root.Distinct) :
    verifyInstalled (.dir root) manifest = .ok () ↔ Authentic root manifest := by
  have hunexpected : ((root.files.filterMap (unexpected? manifest.files)).mergeSort
      fun a b => a.1 ≤ b.1).head? = none ↔ ∀ p a, root.get p = some (.file a) →
        ∃ data, a = .File data ∧
          (joined p = VERIFIED_MARKER_NAME ∨ ∃ row ∈ manifest.files, row.path = joined p) := by
    rw [List.head?_eq_none_iff, ← List.length_eq_zero_iff, List.length_mergeSort,
      List.length_eq_zero_iff, List.filterMap_eq_nil_iff]
    constructor
    · exact fun h p a hget => unexpected?_eq_none.mp (h (p, a) ((FileTree.mem_files hroot).mpr hget))
    · exact fun h f hf => unexpected?_eq_none.mpr (h f.1 f.2 ((FileTree.mem_files hroot).mp hf))
  unfold verifyInstalled
  dsimp only
  cases hhead : ((root.files.filterMap (unexpected? manifest.files)).mergeSort
      fun a b => a.1 ≤ b.1).head? with
  | some e =>
      refine iff_of_false nofun fun h => ?_
      have := hunexpected.mpr h.declared
      rw [hhead] at this
      cases this
  | none =>
      dsimp only
      rw [forM_eq_ok]
      simp only [List.mem_mergeSort, checkInstalledRow_eq_ok, mem_observed hroot]
      constructor
      · intro h
        refine ⟨hunexpected.mp hhead, fun row hrow => ?_⟩
        obtain ⟨hrelative, ⟨⟨p, data, hget, hp⟩, hmarker, -⟩, data', hget', hhash⟩ := h row hrow
        rw [← hp, names_joined (ne_nil_of_get_file hget)] at hget'
        exact ⟨hrelative, p, data', hget', hp, hmarker, hhash⟩
      · intro h row hrow
        obtain ⟨hrelative, p, data, hget, hp, hmarker, hhash⟩ := h.present row hrow
        refine ⟨hrelative, ⟨⟨p, data, hget, hp⟩, hmarker, row, hrow, rfl⟩, data, ?_, hhash⟩
        rw [← hp, names_joined (ne_nil_of_get_file hget), hget]

/-- A tree with the same files authenticates as well. -/
theorem Authentic.congr {root' : Tree} (h : Authentic root manifest)
    (hsame : ∀ p a, root'.get p = some (.file a) ↔ root.get p = some (.file a)) :
    Authentic root' manifest := by
  refine ⟨fun p a hget => h.declared p a ((hsame p a).mp hget), fun row hrow => ?_⟩
  obtain ⟨hrelative, p, data, hget, hrest⟩ := h.present row hrow
  exact ⟨hrelative, p, data, (hsame p _).mpr hget, hrest⟩

end Authentic

/-! ## Export -/

/-- The row that a manifest has for a source. -/
def RowOf (source : Text × Source) (row : BundleFile) : Prop :=
  ∃ data, source = (row.path, .File data) ∧ hashFile data = (row.sha256, row.size)

theorem bundleFiles_ok {total : ℕ} {sources : List (Text × Source)} {rows : List BundleFile}
    (h : bundleFiles total sources = .ok rows) :
    List.Forall₂ RowOf sources rows ∧ ∀ source ∈ sources, Relative source.1 := by
  induction sources generalizing total rows with
  | nil =>
      cases h
      exact ⟨.nil, nofun⟩
  | cons source sources ih =>
      obtain ⟨name, source⟩ := source
      rw [bundleFiles.eq_def] at h
      obtain ⟨u, hname, h⟩ := bind_eq_ok.mp h
      split_ifs at h
      cases source with
      | Absent => cases h
      | NotRegular => cases h
      | File data =>
          dsimp only at h
          split_ifs at h
          obtain ⟨rows', hrows, h⟩ := bind_eq_ok.mp h
          cases h
          obtain ⟨hall, hnames⟩ := ih hrows
          exact ⟨.cons ⟨data, rfl, rfl⟩ hall,
            List.forall_mem_cons.mpr ⟨validateRelative_eq_ok.mp hname, hnames⟩⟩

section Scan

variable {seen : List Text} {count total : ℕ} {found r : Option (List UInt8)} {archive : Archive}

/-- A member that the first pass lets through has a name that is new. -/
theorem scanMembers_cons {member : Member}
    (h : scanMembers seen count total found (some member :: archive) = .ok r) :
    ∃ raw, member.name = some raw ∧ trimSlashes raw ∉ seen ∧
      scanMembers (trimSlashes raw :: seen) (count + 1) (total + member.size)
        (if trimSlashes raw = MANIFEST_NAME then some member.data else found) archive = .ok r := by
  rw [scanMembers] at h
  split at h
  · cases h
  cases hname : member.name with
  | none =>
      rw [hname] at h
      cases h
  | some raw =>
      rw [hname] at h
      obtain ⟨u, -, h⟩ := bind_eq_ok.mp h
      refine ⟨raw, rfl, ?_⟩
      split at h
      · cases h
      rename_i hseen
      refine ⟨hseen, ?_⟩
      dsimp only at h
      split_ifs at h ⊢
      · exact h
      · exact h

/-- After the manifest, no other member is taken for it. -/
theorem scanMembers_found (hseen : MANIFEST_NAME ∈ seen)
    (h : scanMembers seen count total found archive = .ok r) :
    r = found ∧ ∀ member, some member ∈ archive → member.name ≠ some MANIFEST_NAME := by
  have htrim : trimSlashes MANIFEST_NAME = MANIFEST_NAME := by decide
  induction archive generalizing seen count total with
  | nil =>
      cases h
      exact ⟨rfl, nofun⟩
  | cons member? archive ih =>
      cases member? with
      | none => cases h
      | some member =>
          obtain ⟨raw, hname, hnew, h⟩ := scanMembers_cons h
          have hne : trimSlashes raw ≠ MANIFEST_NAME := fun heq => hnew (heq ▸ hseen)
          rw [if_neg hne] at h
          obtain ⟨hr, hrest⟩ := ih (List.mem_cons_of_mem _ hseen) h
          refine ⟨hr, fun member' hmem => ?_⟩
          obtain heq | hmem := List.mem_cons.mp hmem
          · cases heq
            rw [hname]
            rintro ⟨⟩
            exact hne htrim
          · exact hrest member' hmem

end Scan

section Export

variable [Formats]

/-- The member that is written for a source. -/
def MemberOf (source : Text × Source) (member : Member) : Prop :=
  ∃ stored data, Formats.setPath source.1 = some stored ∧ source.2 = .File data ∧
    member.name = some stored ∧ member.entryType = .Regular ∧ member.data = data

theorem regularMember_ok {name : Text} {size : ℕ} {data : List UInt8} {member : Member}
    (h : regularMember name size data = .ok member) :
    ∃ stored, Formats.setPath name = some stored ∧ member = ⟨some stored, .Regular, size, data⟩ := by
  unfold regularMember at h
  split at h
  · cases h
  · rename_i stored hstored
    cases h
    exact ⟨stored, hstored, rfl⟩

omit [Formats] in
theorem find?_source {files : SourceMap} {source : Text × Source} (h : source ∈ files.rows) :
    files.rows.find? (fun s => s.1 = source.1) = some source := by
  obtain ⟨before, after, heq⟩ := List.append_of_mem h
  have hsorted := files.sorted
  rw [heq] at hsorted ⊢
  rw [List.find?_append, List.find?_eq_none.mpr, Option.none_or, List.find?_cons_of_pos (by simp)]
  intro s hs hsame
  have hlt := (List.pairwise_append.mp hsorted).2.2 s hs source List.mem_cons_self
  rw [of_decide_eq_true hsame] at hlt
  exact List.lt_irrefl _ hlt

theorem appendFile_ok {files : SourceMap} {source : Text × Source} {row : BundleFile}
    {member : Member} (hsource : source ∈ files.rows) (hrow : RowOf source row)
    (h : appendFile files row = .ok member) : MemberOf source member := by
  obtain ⟨data, rfl, -⟩ := hrow
  unfold appendFile at h
  rw [find?_source hsource] at h
  obtain ⟨stored, hstored, rfl⟩ := regularMember_ok h
  exact ⟨stored, data, hstored, rfl, rfl, rfl, rfl⟩

theorem contents_members {sources : List (Text × Source)} {members : List Member}
    (h : List.Forall₂ MemberOf sources members)
    (hne : ∀ member ∈ members, member.name ≠ some MANIFEST_NAME) :
    List.Forall₂ (fun source file => Formats.setPath source.1 = some file.1 ∧
      source.2 = .File file.2) sources (contents (members.map some)) := by
  induction h with
  | nil => exact .nil
  | @cons source member sources members hmember hrest ih =>
      obtain ⟨stored, data, hstored, hdata, hname, htype, hmdata⟩ := hmember
      obtain ⟨hne, hnes⟩ := List.forall_mem_cons.mp hne
      have hfile : member.file? = some (stored, data) := by
        rw [hname] at hne
        rw [Member.file?, if_pos htype, hname, Option.bind_some,
          if_neg fun h => hne (congrArg some h), hmdata]
      rw [List.map_cons, contents_cons_some hfile]
      exact .cons ⟨hstored, hdata⟩ (ih hnes)

/-- What was stored of a path is stored as it is. -/
theorem setPath_stored {path stored again : Text} (hpath : Relative path)
    (h : Formats.setPath path = some stored) (hagain : Formats.setPath stored = some again) :
    again = stored := by
  have hstored := Formats.setPath_eq h
  rw [Formats.setPath_eq hagain, hstored]
  have hne := names_ne_nil hpath
  by_cases hslash : path.getLast? = some '/'
  · rw [if_pos hslash, names_joined_slash hne, if_pos List.getLast?_concat]
  · rw [if_neg hslash, List.append_nil, names_joined hne, if_neg, List.append_nil]
    have hspells := spellsDirectory_joined hne
    unfold spellsDirectory at hspells
    rw [Bool.or_eq_false_iff] at hspells
    exact of_decide_eq_false hspells.1

omit [Formats] in
theorem eq_of_forall₂ {α : Type} {R : α → α → Prop} {xs ys : List α} (h : List.Forall₂ R xs ys)
    (heq : ∀ x ∈ xs, ∀ y, R x y → y = x) : ys = xs := by
  induction h with
  | nil => rfl
  | cons hxy _ ih =>
      obtain ⟨hx, hxs⟩ := List.forall_mem_cons.mp heq
      rw [hx _ hxy, ih hxs]

omit [Formats] in
theorem exists_of_mem_right {α β : Type} {R : α → β → Prop} {xs : List α} {ys : List β} {y : β}
    (h : List.Forall₂ R xs ys) (hy : y ∈ ys) : ∃ x ∈ xs, R x y := by
  induction h with
  | nil => cases hy
  | cons hxy _ ih =>
      obtain rfl | hy := List.mem_cons.mp hy
      · exact ⟨_, List.mem_cons_self, hxy⟩
      · obtain ⟨x, hx, hR⟩ := ih hy
        exact ⟨x, List.mem_cons_of_mem _ hx, hR⟩

/-- Where the stored names are those of the manifest, each is stored as it is. -/
theorem setPath_self {paths stored : List Text}
    (hset : List.Forall₂ (fun path s => Formats.setPath path = some s) paths stored)
    (hnames : ∀ path ∈ paths, Relative path) (hnodup : stored.Nodup) (hsub : stored ⊆ paths) :
    stored = paths := by
  have hperm : stored.Perm paths :=
    (List.subperm_of_subset hnodup hsub).perm_of_length_le hset.length_eq.le
  refine eq_of_forall₂ hset fun path hpath s hs => ?_
  obtain ⟨path', hpath', h⟩ := exists_of_mem_right hset (hperm.mem_iff.mpr hpath)
  exact setPath_stored (hnames path' hpath') h hs

/-- What is in an exported archive: the sources under their own names, as its manifest says. -/
structure Exports (aliasName : Text) (files : SourceMap) (archive : Archive)
    (manifest : BundleManifest) : Prop where
  read : readAndValidateManifest archive = .ok manifest
  aliasName_eq : manifest.aliasName = aliasName
  relative : Relative aliasName
  verified : verifyArchiveFiles archive manifest none = .ok none
  rows : List.Forall₂ RowOf files.rows manifest.files
  contents : List.Forall₂ (fun source file => source = (file.1, .File file.2)) files.rows
    (contents archive)
  names : ∀ source ∈ files.rows, Relative source.1 ∧ Formats.setPath source.1 = some source.1

theorem manifestName_stored {stored : Text} (h : Formats.setPath MANIFEST_NAME = some stored) :
    stored = MANIFEST_NAME := by
  have hjoined : joined (names MANIFEST_NAME) = MANIFEST_NAME := by decide
  rw [Formats.setPath_eq h, hjoined, if_neg (by decide), List.append_nil]

/-- The manifest that is read is the one that was written first. -/
theorem readAndValidateManifest_head {manifest manifest' : BundleManifest} {head : Member}
    {archive : Archive} (hname : head.name = some MANIFEST_NAME)
    (hdata : head.data = Formats.toVecPretty manifest ++ [10])
    (h : readAndValidateManifest (some head :: archive) = .ok manifest') :
    manifest' = manifest ∧ ∀ member, some member ∈ archive → member.name ≠ some MANIFEST_NAME := by
  have htrim : trimSlashes MANIFEST_NAME = MANIFEST_NAME := by decide
  obtain ⟨found, hscan, h⟩ := bind_eq_ok.mp h
  obtain ⟨raw, hraw, -, hscan⟩ := scanMembers_cons hscan
  cases hname.symm.trans hraw
  rw [htrim, if_pos rfl] at hscan
  obtain ⟨rfl, hrest⟩ := scanMembers_found List.mem_cons_self hscan
  dsimp only at h
  rw [hdata, Formats.fromSlice_toVecPretty] at h
  obtain ⟨u, -, h⟩ := bind_eq_ok.mp h
  split at h
  · cases h
  obtain ⟨u, -, h⟩ := bind_eq_ok.mp h
  split at h
  · cases h
  · exact ⟨(Except.ok.inj h).symm, hrest⟩

theorem forall₂_of_mapM {files : SourceMap} {sources : List (Text × Source)}
    {rows : List BundleFile} {members : List Member} (hsub : sources ⊆ files.rows)
    (hrows : List.Forall₂ RowOf sources rows)
    (hmembers : List.Forall₂ (fun row member => appendFile files row = .ok member) rows members) :
    List.Forall₂ MemberOf sources members := by
  induction hrows generalizing members with
  | nil =>
      cases hmembers
      exact .nil
  | cons hrow _ ih =>
      cases hmembers with
      | cons hmember hrest =>
          exact .cons (appendFile_ok (hsub List.mem_cons_self) hrow hmember)
            (ih (fun _ h => hsub (List.mem_cons_of_mem _ h)) hrest)

omit [Formats] in
/-- The rows of a manifest are in the order of the sources. -/
theorem mergeSort_rows {files : SourceMap} {rows : List BundleFile}
    (h : List.Forall₂ RowOf files.rows rows) :
    rows.mergeSort (fun a b => a.path ≤ b.path) = rows := by
  refine List.mergeSort_of_pairwise ?_
  have hsorted := files.sorted
  generalize files.rows = sources at h hsorted
  induction h with
  | nil => exact .nil
  | @cons source row sources rows hrow hrest ih =>
      obtain ⟨hhead, hsorted⟩ := List.pairwise_cons.mp hsorted
      refine List.pairwise_cons.mpr ⟨fun row' hrow' => decide_eq_true ?_, ih hsorted⟩
      obtain ⟨data, rfl, -⟩ := hrow
      obtain ⟨source', hsource', data', rfl, -⟩ := exists_of_mem_right hrest hrow'
      exact le_of_lt (hhead _ hsource')

/-- An export writes its sources, as its manifest says. -/
theorem exportBundle_ok {aliasName : Text} {files : SourceMap} {archive : Archive}
    {facts : BundleInspection} (h : exportBundle aliasName files = .ok (archive, facts)) :
    ∃ manifest, Exports aliasName files archive manifest := by
  unfold exportBundle at h
  obtain ⟨u, halias, h⟩ := bind_eq_ok.mp h
  split_ifs at h
  obtain ⟨rows, hrows, h⟩ := bind_eq_ok.mp h
  obtain ⟨hrows, hnames⟩ := bundleFiles_ok hrows
  dsimp only at h
  rw [mergeSort_rows hrows] at h
  obtain ⟨head, hhead, h⟩ := bind_eq_ok.mp h
  obtain ⟨members, hmembers, h⟩ := bind_eq_ok.mp h
  obtain ⟨inspected, hinspected, h⟩ := bind_eq_ok.mp h
  obtain ⟨facts', -, h⟩ := bind_eq_ok.mp h
  cases h
  obtain ⟨stored, hstored, rfl⟩ := regularMember_ok hhead
  obtain rfl := manifestName_stored hstored
  obtain ⟨manifest, hread, hinspected⟩ := bind_eq_ok.mp hinspected
  obtain ⟨destination, hverify, -⟩ := bind_eq_ok.mp hinspected
  obtain ⟨rfl, hnodup, hlength, hfiles⟩ := verifyArchiveFiles_none hverify
  obtain ⟨rfl, hne⟩ := readAndValidateManifest_head rfl rfl hread
  have hmembers := forall₂_of_mapM (List.Subset.refl _) hrows (mapM_eq_ok hmembers)
  have hcontents := contents_members hmembers fun member hmem =>
    hne member (List.mem_map_of_mem hmem)
  have hheadfile : Member.file? ⟨some MANIFEST_NAME, .Regular,
      (Formats.toVecPretty ⟨aliasName, rows, rootDigest aliasName rows⟩ ++ [10]).length,
      Formats.toVecPretty ⟨aliasName, rows, rootDigest aliasName rows⟩ ++ [10]⟩ = none := rfl
  rw [List.map_cons, contents_cons_none hheadfile] at hnodup hlength hfiles
  -- each name is stored as it is
  have hset : List.Forall₂ (fun path s => Formats.setPath path = some s)
      (files.rows.map Prod.fst) ((contents (members.map some)).map Prod.fst) := by
    rw [List.forall₂_map_left_iff, List.forall₂_map_right_iff]
    exact hcontents.imp fun _ _ h => h.1
  have hpaths : rows.map BundleFile.path = files.rows.map Prod.fst := by
    refine eq_of_forall₂ (R := fun x y => y = x) ?_ fun _ _ _ h => h
    rw [List.forall₂_map_left_iff, List.forall₂_map_right_iff]
    refine hrows.imp ?_
    rintro _ row ⟨data, rfl, -⟩
    rfl
  have hsub : (contents (members.map some)).map Prod.fst ⊆ files.rows.map Prod.fst := by
    rw [← hpaths]
    intro name hname
    obtain ⟨file, hfile, rfl⟩ := List.mem_map.mp hname
    obtain ⟨row, hrow, -⟩ := hfiles file hfile
    have hsame : row.path = file.1 :=
      of_decide_eq_true (List.find?_some (p := fun row : BundleFile => decide (row.path = file.1)) hrow)
    exact hsame ▸ List.mem_map_of_mem (List.mem_of_find?_eq_some hrow)
  have hself := setPath_self hset (by
    intro path hpath
    obtain ⟨source, hsource, rfl⟩ := List.mem_map.mp hpath
    exact hnames source hsource) hnodup hsub
  refine ⟨_, hread, rfl, validateRelative_eq_ok.mp halias, hverify, hrows, ?_, ?_⟩
  · rw [List.map_cons, contents_cons_none hheadfile]
    generalize files.rows = sources at hcontents hself
    clear hset hsub hlength hfiles hnodup
    generalize contents (members.map some) = written at hcontents hself
    induction hcontents with
    | nil => exact .nil
    | @cons source file sources written hfile hrest ih =>
        rw [List.map_cons, List.map_cons] at hself
        obtain ⟨hname, hself⟩ := List.cons.inj hself
        exact .cons (Prod.ext hname.symm hfile.2) (ih hself)
  · intro source hsource
    refine ⟨hnames source hsource, ?_⟩
    rw [hself] at hset
    exact List.forall₂_same.mp hset source.1 (List.mem_map_of_mem hsource)

end Export

end Toktier.Facade.Bundle
