import Mathlib.Data.List.Infix

/-!
# Trees of named files

A directory is a row of entries, each a file or a directory of its own, under a name that no other
entry of the row has. A path is a list of names. Directories are made on the way to a path, an
entry is placed where there is none, files are taken out of one directory, and for each of these
it is said which files and which directories there are afterwards.

## Main definitions

* `FileTree`, `FileTree.Node`: a directory, and what a path leads to.
* `FileTree.get`: what a path leads to; `FileTree.files`: all files with their paths.
* `FileTree.mkdirs`, `FileTree.place`, `FileTree.retain`, `FileTree.alter`: the operations.

## Main results

* `mem_files`: the files are what paths lead to.
* `get_mkdirs_file`, `get_place_file`, `get_alter_retain_file`: the files after an operation.
* `isSome_mkdirs_iff`, `isSome_place_iff`: when an operation succeeds.
-/
namespace Toktier.Lib

/-- A directory: its entries in the order in which they were made. -/
inductive FileTree (ν α : Type)
  | nil
  | file (name : ν) (a : α) (rest : FileTree ν α)
  | dir (name : ν) (entries : FileTree ν α) (rest : FileTree ν α)
  deriving DecidableEq

/-- What a path leads to. -/
inductive FileTree.Node (ν α : Type)
  | file (a : α)
  | dir (t : FileTree ν α)
  deriving DecidableEq

namespace FileTree

variable {ν α : Type}

/-- The names of the entries. -/
def names : FileTree ν α → List ν
  | nil => []
  | file n _ rest => n :: names rest
  | dir n _ rest => n :: names rest

/-- No two entries of a directory have one name. -/
def Distinct : FileTree ν α → Prop
  | nil => True
  | file n _ rest => n ∉ names rest ∧ Distinct rest
  | dir n entries rest => n ∉ names rest ∧ Distinct entries ∧ Distinct rest

/-- All files, with their paths. -/
def files : FileTree ν α → List (List ν × α)
  | nil => []
  | file n a rest => ([n], a) :: files rest
  | dir n entries rest => (files entries).map (fun f => (n :: f.1, f.2)) ++ files rest

/-- Keep the files of the directory itself that are to be kept. -/
def retain (keep : ν → α → Bool) : FileTree ν α → FileTree ν α
  | nil => nil
  | file n a rest => if keep n a then file n a (retain keep rest) else retain keep rest
  | dir n entries rest => dir n entries (retain keep rest)

/-- An entry before the others. -/
def Node.cons (n : ν) : Node ν α → FileTree ν α → FileTree ν α
  | .file a, rest => .file n a rest
  | .dir t, rest => .dir n t rest

variable [DecidableEq ν]

/-- The entry of a name. -/
def find : FileTree ν α → ν → Option (Node ν α)
  | nil, _ => none
  | file m a rest, n => if m = n then some (.file a) else find rest n
  | dir m entries rest, n => if m = n then some (.dir entries) else find rest n

/-- Give a name its entry, in the place of the one that it has. -/
def put : FileTree ν α → ν → Node ν α → FileTree ν α
  | nil, n, x => x.cons n nil
  | file m a rest, n, x => if m = n then x.cons n rest else file m a (put rest n x)
  | dir m entries rest, n, x => if m = n then x.cons n rest else dir m entries (put rest n x)

/-- Take a name out, with all that is below it. -/
def erase : FileTree ν α → ν → FileTree ν α
  | nil, _ => nil
  | file m a rest, n => if m = n then erase rest n else file m a (erase rest n)
  | dir m entries rest, n => if m = n then erase rest n else dir m entries (erase rest n)

/-- What a path leads to. -/
def Node.get : Node ν α → List ν → Option (Node ν α)
  | x, [] => some x
  | .file _, _ :: _ => none
  | .dir t, n :: p =>
      match t.find n with
      | none => none
      | some x => Node.get x p

def get (t : FileTree ν α) (p : List ν) : Option (Node ν α) := Node.get (.dir t) p

/-- Make the directories of a path; a file may not be in the way. -/
def mkdirs : FileTree ν α → List ν → Option (FileTree ν α)
  | t, [] => some t
  | t, n :: p =>
      match t.find n with
      | none => (mkdirs nil p).map fun e => t.put n (.dir e)
      | some (.dir e) => (mkdirs e p).map fun e' => t.put n (.dir e')
      | some (.file _) => none

/-- Place an entry where there is none, in a directory that exists. -/
def place : FileTree ν α → List ν → Node ν α → Option (FileTree ν α)
  | _, [], _ => none
  | t, n :: p, x =>
      match t.find n with
      | none => if p = [] then some (t.put n x) else none
      | some (.dir e) => (place e p x).map fun e' => t.put n (.dir e')
      | some (.file _) => none

/-- Change the directory at a path, if there is one. -/
def alter : FileTree ν α → List ν → (FileTree ν α → FileTree ν α) → FileTree ν α
  | t, [], f => f t
  | t, n :: p, f =>
      match t.find n with
      | some (.dir e) => t.put n (.dir (alter e p f))
      | _ => t

/-! ## One directory -/

section Entries

variable {t : FileTree ν α} {n m : ν} {x y : Node ν α} {p q : List ν} {a : α}

theorem find_eq_none : t.find n = none ↔ n ∉ t.names := by
  induction t with
  | nil => simp [find, names]
  | file m a rest ih =>
      rw [find, names, List.mem_cons, not_or, ← ih]
      split_ifs with h
      · exact iff_of_false nofun fun hn => hn.1 h.symm
      · exact (and_iff_right fun hn => h hn.symm).symm
  | dir m entries rest _ ih =>
      rw [find, names, List.mem_cons, not_or, ← ih]
      split_ifs with h
      · exact iff_of_false nofun fun hn => hn.1 h.symm
      · exact (and_iff_right fun hn => h hn.symm).symm

@[simp] theorem find_cons (x : Node ν α) (t : FileTree ν α) (n m : ν) :
    (x.cons n t).find m = if n = m then some x else t.find m := by
  cases x <;> rfl

theorem find_put (t : FileTree ν α) (n : ν) (x : Node ν α) (m : ν) :
    (t.put n x).find m = if n = m then some x else t.find m := by
  induction t with
  | nil => rw [put, find_cons]
  | file k a rest ih =>
      rw [put]
      split_ifs with hk hm hm
      · rw [find_cons, if_pos hm]
      · rw [find_cons, if_neg hm, find, if_neg (hk ▸ hm)]
      · rw [find, if_neg (hm ▸ hk), ih, if_pos hm]
      · rw [find, find, ih, if_neg hm]
  | dir k entries rest _ ih =>
      rw [put]
      split_ifs with hk hm hm
      · rw [find_cons, if_pos hm]
      · rw [find_cons, if_neg hm, find, if_neg (hk ▸ hm)]
      · rw [find, if_neg (hm ▸ hk), ih, if_pos hm]
      · rw [find, find, ih, if_neg hm]

theorem find_erase (t : FileTree ν α) (n m : ν) :
    (t.erase n).find m = if n = m then none else t.find m := by
  induction t with
  | nil => simp [erase, find]
  | file k a rest ih =>
      rw [erase]
      split_ifs with hk hm hm
      · rw [ih, if_pos hm]
      · rw [ih, if_neg hm, find, if_neg (hk ▸ hm)]
      · rw [find, if_neg (hm ▸ hk), ih, if_pos hm]
      · rw [find, find, ih, if_neg hm]
  | dir k entries rest _ ih =>
      rw [erase]
      split_ifs with hk hm hm
      · rw [ih, if_pos hm]
      · rw [ih, if_neg hm, find, if_neg (hk ▸ hm)]
      · rw [find, if_neg (hm ▸ hk), ih, if_pos hm]
      · rw [find, find, ih, if_neg hm]

theorem put_of_find (h : t.find n = some x) : t.put n x = t := by
  induction t with
  | nil => cases h
  | file m a rest ih =>
      rw [find] at h
      rw [put]
      split_ifs at h ⊢ with hm
      · cases h
        exact congrArg (fun k => FileTree.file k a rest) hm.symm
      · rw [ih h]
  | dir m entries rest _ ih =>
      rw [find] at h
      rw [put]
      split_ifs at h ⊢ with hm
      · cases h
        exact congrArg (fun k => FileTree.dir k entries rest) hm.symm
      · rw [ih h]

theorem erase_of_find (h : t.find n = none) : t.erase n = t := by
  induction t with
  | nil => rfl
  | file m a rest ih =>
      rw [find] at h
      rw [erase]
      split_ifs at h ⊢ with hm
      rw [ih h]
  | dir m entries rest _ ih =>
      rw [find] at h
      rw [erase]
      split_ifs at h ⊢ with hm
      rw [ih h]

@[simp] theorem erase_cons (x : Node ν α) (t : FileTree ν α) (n m : ν) :
    (x.cons n t).erase m = if n = m then t.erase m else x.cons n (t.erase m) := by
  cases x <;> rfl

theorem erase_put_self (t : FileTree ν α) (n : ν) (x : Node ν α) :
    (t.put n x).erase n = t.erase n := by
  induction t with
  | nil => rw [put, erase_cons, if_pos rfl]
  | file m a rest ih =>
      rw [put, erase]
      split_ifs with hm
      · rw [erase_cons, if_pos rfl]
      · rw [erase, if_neg hm, ih]
  | dir m entries rest _ ih =>
      rw [put, erase]
      split_ifs with hm
      · rw [erase_cons, if_pos rfl]
      · rw [erase, if_neg hm, ih]

theorem erase_put_of_ne (h : n ≠ m) : (t.put n x).erase m = (t.erase m).put n x := by
  induction t with
  | nil => rw [put, erase_cons, if_neg h, erase, put]
  | file k a rest ih =>
      rw [put, erase]
      split_ifs with hn hm hm
      · exact absurd (hn.symm.trans hm) h
      · rw [erase_cons, if_neg h, put, if_pos hn]
      · rw [erase, if_pos hm, ih]
      · rw [erase, if_neg hm, ih, put, if_neg hn]
  | dir k entries rest _ ih =>
      rw [put, erase]
      split_ifs with hn hm hm
      · exact absurd (hn.symm.trans hm) h
      · rw [erase_cons, if_neg h, put, if_pos hn]
      · rw [erase, if_pos hm, ih]
      · rw [erase, if_neg hm, ih, put, if_neg hn]

/-- What was put under a new name is taken out again. -/
theorem erase_put (h : t.find n = none) (x : Node ν α) : (t.put n x).erase n = t := by
  rw [erase_put_self, erase_of_find h]

end Entries

/-! ## Paths -/

section Paths

variable {t : FileTree ν α} {n m : ν} {x y : Node ν α} {p q : List ν} {a : α}

@[simp] theorem get_nil (t : FileTree ν α) : t.get [] = some (.dir t) := rfl

@[simp] theorem Node.get_nil (x : Node ν α) : x.get [] = some x := by
  cases x <;> rfl

theorem get_cons (t : FileTree ν α) (n : ν) (p : List ν) :
    t.get (n :: p) = (t.find n).bind (·.get p) := by
  rw [get, Node.get]
  cases t.find n <;> rfl

theorem Node.get_append (x : Node ν α) (p q : List ν) :
    x.get (p ++ q) = (x.get p).bind (·.get q) := by
  induction p generalizing x with
  | nil => rw [List.nil_append, Node.get_nil, Option.bind_some]
  | cons n p ih =>
      cases x with
      | file a => rfl
      | dir t =>
          rw [List.cons_append, Node.get, Node.get]
          cases t.find n with
          | none => rfl
          | some y => exact ih y

theorem get_append (t : FileTree ν α) (p q : List ν) :
    t.get (p ++ q) = (t.get p).bind (·.get q) :=
  Node.get_append (.dir t) p q

theorem get_append_of_dir {e : FileTree ν α} (h : t.get p = some (.dir e)) (q : List ν) :
    t.get (p ++ q) = e.get q := by
  rw [get_append, h]
  rfl

/-- Nothing is below a file. -/
theorem get_append_of_file (h : t.get p = some (.file a)) (hq : q ≠ []) : t.get (p ++ q) = none := by
  obtain ⟨n, r, rfl⟩ := List.exists_cons_of_ne_nil hq
  rw [get_append, h]
  rfl

theorem get_of_prefix (h : p <+: q) (hnone : t.get p = none) : t.get q = none := by
  obtain ⟨r, rfl⟩ := h
  rw [get_append, hnone]
  rfl

/-- On the way to an entry there are directories. -/
theorem exists_dir_of_get (h : t.get (p ++ q) = some x) (hq : q ≠ []) :
    ∃ e, t.get p = some (.dir e) := by
  cases hp : t.get p with
  | none => rw [get_append, hp] at h; cases h
  | some y =>
      cases y with
      | file a => rw [get_append_of_file hp hq] at h; cases h
      | dir e => exact ⟨e, rfl⟩

theorem get_put (t : FileTree ν α) (n : ν) (x : Node ν α) (m : ν) (p : List ν) :
    (t.put n x).get (m :: p) = if n = m then x.get p else t.get (m :: p) := by
  rw [get_cons, find_put, get_cons]
  split_ifs <;> rfl

theorem get_erase (t : FileTree ν α) (n m : ν) (p : List ν) :
    (t.erase n).get (m :: p) = if n = m then none else t.get (m :: p) := by
  rw [get_cons, find_erase, get_cons]
  split_ifs <;> rfl

end Paths

/-! ## Distinct names -/

/-- The entries below a node have distinct names. -/
def Node.Distinct : Node ν α → Prop
  | .file _ => True
  | .dir t => FileTree.Distinct t

section Distinct

variable {t : FileTree ν α} {n m : ν} {x y : Node ν α} {p q : List ν} {a : α}

omit [DecidableEq ν] in
theorem distinct_cons (x : Node ν α) : (x.cons n t).Distinct ↔ n ∉ t.names ∧ x.Distinct ∧ t.Distinct := by
  cases x with
  | file a => exact ⟨fun h => ⟨h.1, trivial, h.2⟩, fun h => ⟨h.1, h.2.2⟩⟩
  | dir e => exact Iff.rfl

theorem distinct_find (h : t.Distinct) (hx : t.find n = some x) : x.Distinct := by
  induction t with
  | nil => cases hx
  | file m a rest ih =>
      rw [find] at hx
      split_ifs at hx with hm
      · cases hx
        trivial
      · exact ih h.2 hx
  | dir m entries rest _ ih =>
      rw [find] at hx
      split_ifs at hx with hm
      · cases hx
        exact h.2.1
      · exact ih h.2.2 hx

theorem distinct_get (h : t.Distinct) (hx : t.get p = some x) : x.Distinct := by
  induction p generalizing t with
  | nil =>
      cases hx
      exact h
  | cons n p ih =>
      rw [get_cons] at hx
      obtain ⟨y, hy, hx⟩ := Option.bind_eq_some_iff.mp hx
      have hdy := distinct_find h hy
      cases y with
      | dir e => exact ih hdy hx
      | file b =>
          cases p with
          | nil =>
              cases hx
              trivial
          | cons m p => cases hx

theorem mem_names_put (hm : m ∈ (t.put n x).names) : m = n ∨ m ∈ t.names := by
  by_contra hno
  obtain ⟨hne, hout⟩ := not_or.mp hno
  refine find_eq_none.mp ?_ hm
  rw [find_put, if_neg fun h => hne h.symm]
  exact find_eq_none.mpr hout

theorem distinct_put (h : t.Distinct) (hx : x.Distinct) : (t.put n x).Distinct := by
  induction t with
  | nil => exact (distinct_cons x).mpr ⟨nofun, hx, trivial⟩
  | file m a rest ih =>
      obtain ⟨hm, hrest⟩ := h
      rw [put]
      split_ifs with hmn
      · exact (distinct_cons x).mpr ⟨hmn ▸ hm, hx, hrest⟩
      · exact ⟨fun hin => (mem_names_put hin).elim hmn hm, ih hrest⟩
  | dir m entries rest _ ih =>
      obtain ⟨hm, hentries, hrest⟩ := h
      rw [put]
      split_ifs with hmn
      · exact (distinct_cons x).mpr ⟨hmn ▸ hm, hx, hrest⟩
      · exact ⟨fun hin => (mem_names_put hin).elim hmn hm, hentries, ih hrest⟩

omit [DecidableEq ν] in
theorem distinct_retain {keep : ν → α → Bool} (h : t.Distinct) : (t.retain keep).Distinct := by
  have hout {t : FileTree ν α} {m : ν} (hm : m ∉ t.names) : m ∉ (t.retain keep).names := by
    induction t with
    | nil => exact hm
    | file k a rest ih =>
        obtain ⟨hk, hrest⟩ := not_or.mp (List.mem_cons.not.mp hm)
        rw [retain]
        split_ifs
        · exact List.mem_cons.not.mpr (not_or.mpr ⟨hk, ih hrest⟩)
        · exact ih hrest
    | dir k entries rest _ ih =>
        obtain ⟨hk, hrest⟩ := not_or.mp (List.mem_cons.not.mp hm)
        exact List.mem_cons.not.mpr (not_or.mpr ⟨hk, ih hrest⟩)
  induction t with
  | nil => trivial
  | file m a rest ih =>
      rw [retain]
      split_ifs
      · exact ⟨hout h.1, ih h.2⟩
      · exact ih h.2
  | dir m entries rest _ ih => exact ⟨hout h.1, h.2.1, ih h.2.2⟩

theorem distinct_mkdirs {t' : FileTree ν α} (h : t.Distinct) (hmk : t.mkdirs p = some t') :
    t'.Distinct := by
  induction p generalizing t t' with
  | nil =>
      cases hmk
      exact h
  | cons n p ih =>
      rw [mkdirs] at hmk
      cases hfind : t.find n with
      | none =>
          rw [hfind] at hmk
          obtain ⟨e, he, rfl⟩ := Option.map_eq_some_iff.mp hmk
          exact distinct_put h (ih (t := nil) trivial he)
      | some x =>
          rw [hfind] at hmk
          cases x with
          | file a => cases hmk
          | dir e =>
              obtain ⟨e', he, rfl⟩ := Option.map_eq_some_iff.mp hmk
              exact distinct_put h (ih (distinct_find h hfind) he)

theorem distinct_place {t' : FileTree ν α} (h : t.Distinct) (hx : x.Distinct)
    (hplace : t.place p x = some t') : t'.Distinct := by
  induction p generalizing t t' with
  | nil => cases hplace
  | cons n p ih =>
      rw [place] at hplace
      cases hfind : t.find n with
      | none =>
          rw [hfind] at hplace
          dsimp only at hplace
          split_ifs at hplace
          cases hplace
          exact distinct_put h hx
      | some y =>
          rw [hfind] at hplace
          cases y with
          | file a => cases hplace
          | dir e =>
              obtain ⟨e', he, rfl⟩ := Option.map_eq_some_iff.mp hplace
              exact distinct_put h (ih (distinct_find h hfind) he)

theorem distinct_alter {f : FileTree ν α → FileTree ν α} (h : t.Distinct)
    (hf : ∀ e : FileTree ν α, e.Distinct → (f e).Distinct) : (t.alter p f).Distinct := by
  induction p generalizing t with
  | nil => exact hf t h
  | cons n p ih =>
      rw [alter]
      split
      · rename_i e hfind
        exact distinct_put h (ih (distinct_find h hfind))
      · exact h

/-- The files are what paths lead to. -/
theorem mem_files (h : t.Distinct) : (p, a) ∈ t.files ↔ t.get p = some (.file a) := by
  induction t generalizing p with
  | nil =>
      refine iff_of_false nofun ?_
      cases p <;> exact nofun
  | file m b rest ih =>
      obtain ⟨hm, hrest⟩ := h
      rw [files, List.mem_cons, ih hrest]
      cases p with
      | nil => exact iff_of_false (fun h => h.elim nofun nofun) nofun
      | cons n p =>
          rw [get_cons, get_cons, find]
          split_ifs with hmn
          · subst hmn
            rw [find_eq_none.mpr hm, Option.bind_none, or_iff_left nofun, Option.bind_some]
            cases p <;> simp [Node.get, eq_comm]
          · refine or_iff_right fun h => hmn ?_
            cases h
            rfl
  | dir m entries rest ihe ih =>
      obtain ⟨hm, hentries, hrest⟩ := h
      rw [files, List.mem_append, ih hrest]
      cases p with
      | nil =>
          refine iff_of_false (fun h => h.elim (fun h => ?_) nofun) nofun
          obtain ⟨f, -, hf⟩ := List.mem_map.mp h
          cases hf
      | cons n p =>
          have hin : (n :: p, a) ∈ entries.files.map (fun f => (m :: f.1, f.2)) ↔
              m = n ∧ (p, a) ∈ entries.files := by
            rw [List.mem_map]
            constructor
            · rintro ⟨f, hf, heq⟩
              cases heq
              exact ⟨rfl, hf⟩
            · rintro ⟨rfl, hf⟩
              exact ⟨(p, a), hf, rfl⟩
          rw [get_cons, get_cons, find, hin, ihe hentries]
          split_ifs with hmn
          · subst hmn
            rw [find_eq_none.mpr hm, Option.bind_none, or_iff_left nofun, Option.bind_some,
              and_iff_right rfl]
            rfl
          · exact or_iff_right fun h => hmn h.1

end Distinct

/-! ## Operations -/

/-- A path leads to a directory. -/
def IsDir (t : FileTree ν α) (p : List ν) : Prop := ∃ e, t.get p = some (.dir e)

section Operations

variable {t t' : FileTree ν α} {n m : ν} {x y : Node ν α} {p q : List ν} {a : α}

theorem isDir_nil (t : FileTree ν α) : t.IsDir [] := ⟨t, rfl⟩

theorem isDir_cons_of_find {e : FileTree ν α} (h : t.find n = some (.dir e)) :
    t.IsDir (n :: q) ↔ e.IsDir q := by
  unfold IsDir
  rw [get_cons, h]
  rfl

theorem isDir_put (t : FileTree ν α) (n : ν) (e : FileTree ν α) (m : ν) (q : List ν) :
    (t.put n (.dir e)).IsDir (m :: q) ↔ if n = m then e.IsDir q else t.IsDir (m :: q) := by
  unfold IsDir
  rw [get_put]
  split_ifs <;> rfl

/-- Nothing is there yet. -/
theorem get_new (h : t.find n = none) (q : List ν) : t.get (n :: q) = none := by
  rw [get_cons, h]
  rfl

theorem isDir_new (h : t.find n = none) : ¬t.IsDir (n :: q) := by
  rintro ⟨e, he⟩
  rw [get_new h] at he
  cases he

theorem nil_get_file : (nil : FileTree ν α).get q ≠ some (.file a) := by
  cases q <;> exact nofun

theorem isDir_of_nil : (nil : FileTree ν α).IsDir q ↔ q = [] := by
  cases q with
  | nil => exact iff_of_true (isDir_nil _) rfl
  | cons m q => exact iff_of_false (isDir_new rfl) nofun

/-! ### Making directories -/

/-- The files stay as they were. -/
theorem get_mkdirs_file (h : t.mkdirs p = some t') :
    t'.get q = some (.file a) ↔ t.get q = some (.file a) := by
  induction p generalizing t t' q with
  | nil =>
      cases h
      rfl
  | cons n p ih =>
      cases q with
      | nil => exact iff_of_false nofun nofun
      | cons m q =>
          rw [mkdirs] at h
          cases hfind : t.find n with
          | none =>
              rw [hfind] at h
              obtain ⟨e, he, rfl⟩ := Option.map_eq_some_iff.mp h
              rw [get_put]
              split_ifs with hnm
              · subst hnm
                rw [get_new hfind]
                exact iff_of_false (fun h => nil_get_file ((ih he).mp h)) nofun
              · rfl
          | some x =>
              rw [hfind] at h
              cases x with
              | file a => cases h
              | dir e =>
                  obtain ⟨e', he, rfl⟩ := Option.map_eq_some_iff.mp h
                  rw [get_put]
                  split_ifs with hnm
                  · subst hnm
                    rw [get_cons, hfind]
                    exact ih he
                  · rfl

/-- The directories are those that were there, and those on the way. -/
theorem isDir_mkdirs (h : t.mkdirs p = some t') : t'.IsDir q ↔ t.IsDir q ∨ q <+: p := by
  induction p generalizing t t' q with
  | nil =>
      cases h
      refine (or_iff_left_of_imp fun h => ?_).symm
      rw [List.prefix_nil.mp h]
      exact isDir_nil t
  | cons n p ih =>
      cases q with
      | nil => exact iff_of_true (isDir_nil t') (.inl (isDir_nil t))
      | cons m q =>
          rw [List.cons_prefix_cons]
          rw [mkdirs] at h
          cases hfind : t.find n with
          | none =>
              rw [hfind] at h
              obtain ⟨e, he, rfl⟩ := Option.map_eq_some_iff.mp h
              rw [isDir_put]
              split_ifs with hnm
              · subst hnm
                rw [ih he, isDir_of_nil, or_iff_right (isDir_new hfind)]
                exact (or_iff_right_of_imp fun hq => hq ▸ List.nil_prefix).trans
                  (and_iff_right rfl).symm
              · exact (or_iff_left fun hq => hnm hq.1.symm).symm
          | some x =>
              rw [hfind] at h
              cases x with
              | file a => cases h
              | dir e =>
                  obtain ⟨e', he, rfl⟩ := Option.map_eq_some_iff.mp h
                  rw [isDir_put]
                  split_ifs with hnm
                  · subst hnm
                    rw [ih he, isDir_cons_of_find hfind, and_iff_right rfl]
                  · exact (or_iff_left fun hq => hnm hq.1.symm).symm

/-- The directories of a path can be made when no file is in the way. -/
theorem exists_mkdirs_iff :
    (∃ t', t.mkdirs p = some t') ↔ ∀ q a, q <+: p → t.get q ≠ some (.file a) := by
  induction p generalizing t with
  | nil =>
      refine iff_of_true ⟨t, rfl⟩ fun q a hq => ?_
      rw [List.prefix_nil.mp hq]
      exact nofun
  | cons n p ih =>
      -- the paths on the way, below the first name
      have hbelow : (∀ q a, q <+: n :: p → t.get q ≠ some (.file a)) ↔
          ∀ q a, q <+: p → t.get (n :: q) ≠ some (.file a) := by
        constructor
        · exact fun h q a hq => h (n :: q) a (List.cons_prefix_cons.mpr ⟨rfl, hq⟩)
        · intro h q a hq
          cases q with
          | nil => exact nofun
          | cons m q =>
              obtain ⟨rfl, hqp⟩ := List.cons_prefix_cons.mp hq
              exact h q a hqp
      rw [hbelow, mkdirs]
      cases hfind : t.find n with
      | none =>
          refine iff_of_true ?_ fun q a _ => by rw [get_new hfind]; exact nofun
          obtain ⟨e, he⟩ := (ih (t := nil)).mpr fun q a _ => nil_get_file
          exact ⟨_, congrArg (Option.map _) he⟩
      | some x =>
          cases x with
          | file a =>
              refine iff_of_false (fun h => nomatch h) fun h => h [] a List.nil_prefix ?_
              rw [get_cons, hfind]
              rfl
          | dir e =>
              have hget (q : List ν) : t.get (n :: q) = e.get q := by
                rw [get_cons, hfind]
                rfl
              simp only [hget, ← ih]
              constructor
              · rintro ⟨t', ht⟩
                obtain ⟨e', he, -⟩ := Option.map_eq_some_iff.mp ht
                exact ⟨e', he⟩
              · rintro ⟨e', he⟩
                exact ⟨_, congrArg (Option.map _) he⟩

/-! ### Placing an entry -/

theorem get_place (h : t.place p x = some t') (r : List ν) : t'.get (p ++ r) = x.get r := by
  induction p generalizing t t' with
  | nil => cases h
  | cons n p ih =>
      rw [place] at h
      rw [List.cons_append]
      cases hfind : t.find n with
      | none =>
          rw [hfind] at h
          dsimp only at h
          split_ifs at h with hp
          cases h
          rw [get_put, if_pos rfl, hp, List.nil_append]
      | some y =>
          rw [hfind] at h
          cases y with
          | file a => cases h
          | dir e =>
              obtain ⟨e', he, rfl⟩ := Option.map_eq_some_iff.mp h
              rw [get_put, if_pos rfl]
              exact ih he

/-- Beside the place, all stays as it was. -/
theorem get_place_of_not_prefix (h : t.place p x = some t') (hpq : ¬p <+: q) (hqp : ¬q <+: p) :
    t'.get q = t.get q := by
  induction p generalizing t t' q with
  | nil => cases h
  | cons n p ih =>
      cases q with
      | nil => exact absurd List.nil_prefix hqp
      | cons m q =>
          rw [place] at h
          cases hfind : t.find n with
          | none =>
              rw [hfind] at h
              dsimp only at h
              split_ifs at h with hp
              cases h
              subst hp
              rw [get_put, if_neg]
              rintro rfl
              exact hpq (List.cons_prefix_cons.mpr ⟨rfl, List.nil_prefix⟩)
          | some y =>
              rw [hfind] at h
              cases y with
              | file a => cases h
              | dir e =>
                  obtain ⟨e', he, rfl⟩ := Option.map_eq_some_iff.mp h
                  rw [get_put]
                  split_ifs with hnm
                  · subst hnm
                    rw [get_cons, hfind]
                    refine ih he (fun hq => hpq ?_) fun hq => hqp ?_
                    · exact List.cons_prefix_cons.mpr ⟨rfl, hq⟩
                    · exact List.cons_prefix_cons.mpr ⟨rfl, hq⟩
                  · rfl

/-- The directories on the way stay directories. -/
theorem isDir_place_of_prefix (h : t.place p x = some t') (hqp : q <+: p) (hne : q ≠ p) :
    t.IsDir q ∧ t'.IsDir q := by
  induction p generalizing t t' q with
  | nil => cases h
  | cons n p ih =>
      cases q with
      | nil => exact ⟨isDir_nil t, isDir_nil t'⟩
      | cons m q =>
          obtain ⟨rfl, hrest⟩ := List.cons_prefix_cons.mp hqp
          have hne : q ≠ p := fun h => hne (congrArg _ h)
          rw [place] at h
          cases hfind : t.find m with
          | none =>
              rw [hfind] at h
              dsimp only at h
              split_ifs at h with hp
              exact absurd (List.prefix_nil.mp (hp ▸ hrest)) (hp ▸ hne)
          | some y =>
              rw [hfind] at h
              cases y with
              | file a => cases h
              | dir e =>
                  obtain ⟨e', he, rfl⟩ := Option.map_eq_some_iff.mp h
                  rw [isDir_cons_of_find hfind, isDir_put, if_pos rfl]
                  exact ih he hrest hne

/-- An entry can be placed where there is none, in a directory. -/
theorem exists_place_iff :
    (∃ t', t.place p x = some t') ↔ p ≠ [] ∧ t.get p = none ∧ t.IsDir p.dropLast := by
  induction p generalizing t with
  | nil => exact iff_of_false nofun fun h => h.1 rfl
  | cons n p ih =>
      rw [place, and_iff_right (List.cons_ne_nil n p)]
      cases hfind : t.find n with
      | none =>
          dsimp only
          rw [and_iff_right (get_new hfind p)]
          cases p with
          | nil => exact iff_of_true ⟨_, if_pos rfl⟩ (isDir_nil t)
          | cons m p =>
              rw [List.dropLast_cons_cons]
              exact iff_of_false (fun h => nomatch h) (isDir_new hfind)
      | some y =>
          cases y with
          | file a =>
              refine iff_of_false (fun h => nomatch h) ?_
              cases p with
              | nil =>
                  rw [get_cons, hfind]
                  exact fun h => nomatch h.1
              | cons m p =>
                  rintro ⟨-, e, he⟩
                  rw [List.dropLast_cons_cons, get_cons, hfind] at he
                  cases hd : (m :: p).dropLast <;> rw [hd] at he <;> cases he
          | dir e =>
              have hsome : (∃ t', (place e p x).map (fun e' => t.put n (.dir e')) = some t') ↔
                  ∃ e', place e p x = some e' := by
                constructor
                · rintro ⟨t', ht⟩
                  obtain ⟨e', he, -⟩ := Option.map_eq_some_iff.mp ht
                  exact ⟨e', he⟩
                · rintro ⟨e', he⟩
                  exact ⟨_, congrArg (Option.map _) he⟩
              dsimp only
              rw [hsome, ih, get_cons, hfind, Option.bind_some]
              cases p with
              | nil =>
                  refine iff_of_false (fun h => h.1 rfl) fun h => ?_
                  rw [Node.get_nil] at h
                  cases h.1
              | cons m p =>
                  rw [List.dropLast_cons_cons, isDir_cons_of_find hfind,
                    and_iff_right (List.cons_ne_nil m p)]
                  rfl

/-! ### Taking files out of one directory -/

variable {keep : ν → α → Bool}

omit [DecidableEq ν] in
theorem mem_names_retain (h : m ∈ (t.retain keep).names) : m ∈ t.names := by
  induction t with
  | nil => cases h
  | file k b rest ih =>
      rw [retain] at h
      split_ifs at h
      · exact (List.mem_cons.mp h).elim (fun hm => hm ▸ List.mem_cons_self) fun h =>
          List.mem_cons_of_mem k (ih h)
      · exact List.mem_cons_of_mem k (ih h)
  | dir k entries rest _ ih =>
      exact (List.mem_cons.mp h).elim (fun hm => hm ▸ List.mem_cons_self) fun h =>
        List.mem_cons_of_mem k (ih h)

theorem find_retain (h : t.Distinct) (n : ν) :
    (t.retain keep).find n = (t.find n).filter fun x =>
      match x with
      | .file a => keep n a
      | .dir _ => true := by
  induction t with
  | nil => rfl
  | file k b rest ih =>
      rw [retain, find]
      split_ifs with hkeep hk hk
      · rw [find, if_pos hk, Option.filter_some, if_pos (hk ▸ hkeep)]
      · rw [find, if_neg hk, ih h.2]
      · subst hk
        rw [Option.filter_some, if_neg hkeep]
        exact find_eq_none.mpr fun hin => h.1 (mem_names_retain hin)
      · exact ih h.2
  | dir k entries rest _ ih =>
      rw [retain, find, find]
      split_ifs with hk
      · rfl
      · exact ih h.2.2

theorem get_retain_file (h : t.Distinct) :
    (t.retain keep).get q = some (.file a) ↔
      t.get q = some (.file a) ∧ ∀ n, q = [n] → keep n a = true := by
  cases q with
  | nil => exact iff_of_false nofun fun h => nomatch h.1
  | cons n q =>
      rw [get_cons, get_cons, find_retain h]
      cases hfind : t.find n with
      | none => exact iff_of_false nofun fun h => nomatch h.1
      | some x =>
          cases x with
          | dir e => exact (and_iff_left_of_imp fun he m hm => by cases hm; cases he).symm
          | file b =>
              rw [Option.filter_some]
              cases q with
              | nil =>
                  dsimp only
                  split_ifs with hkeep
                  · refine (and_iff_left_of_imp fun he m hm => ?_).symm
                    cases hm
                    cases he
                    exact hkeep
                  · refine iff_of_false nofun fun h => hkeep ?_
                    cases h.1
                    exact h.2 n rfl
              | cons m q =>
                  refine iff_of_false (fun h => ?_) fun h => nomatch h.1
                  split_ifs at h <;> cases h

theorem isDir_retain (h : t.Distinct) : (t.retain keep).IsDir q ↔ t.IsDir q := by
  cases q with
  | nil => exact iff_of_true (isDir_nil _) (isDir_nil t)
  | cons n q =>
      unfold IsDir
      rw [get_cons, get_cons, find_retain h]
      cases hfind : t.find n with
      | none => rfl
      | some x =>
          cases x with
          | dir e => rfl
          | file b =>
              rw [Option.filter_some]
              have hfile : ¬∃ e, (Node.file b : Node ν α).get q = some (.dir e) := by
                rintro ⟨e, he⟩
                cases q <;> cases he
              split_ifs
              · rfl
              · exact iff_of_false nofun hfile

/-- Where there is nothing to take out, the directory stays as it is. -/
theorem retain_of_forall (h : t.Distinct)
    (hkeep : ∀ n a, t.get [n] = some (.file a) → keep n a = true) : t.retain keep = t := by
  induction t with
  | nil => rfl
  | file k b rest ih =>
      have hrest : ∀ n a, rest.get [n] = some (.file a) → keep n a = true := by
        intro n a hn
        refine hkeep n a ?_
        rw [get_cons] at hn
        rw [get_cons, find, if_neg]
        · exact hn
        · rintro rfl
          rw [find_eq_none.mpr h.1] at hn
          cases hn
      have hk : keep k b = true := hkeep k b (by rw [get_cons, find, if_pos rfl]; rfl)
      rw [retain, if_pos hk, ih h.2 hrest]
  | dir k entries rest _ ih =>
      have hrest : ∀ n a, rest.get [n] = some (.file a) → keep n a = true := by
        intro n a hn
        refine hkeep n a ?_
        rw [get_cons] at hn
        rw [get_cons, find, if_neg]
        · exact hn
        · rintro rfl
          rw [find_eq_none.mpr h.1] at hn
          cases hn
      rw [retain, ih h.2.2 hrest]

theorem get_alter_self {f : FileTree ν α → FileTree ν α} {e : FileTree ν α}
    (h : t.get p = some (.dir e)) : (t.alter p f).get p = some (.dir (f e)) := by
  induction p generalizing t with
  | nil =>
      cases h
      rfl
  | cons n p ih =>
      rw [get_cons] at h
      obtain ⟨x, hx, h⟩ := Option.bind_eq_some_iff.mp h
      rw [alter, hx]
      cases x with
      | file b => cases p <;> cases h
      | dir d =>
          dsimp only
          rw [get_put, if_pos rfl]
          exact ih h

/-- A directory that is changed to itself. -/
theorem alter_of_eq {f : FileTree ν α → FileTree ν α} {e : FileTree ν α}
    (h : t.get p = some (.dir e)) (hf : f e = e) : t.alter p f = t := by
  induction p generalizing t with
  | nil =>
      cases h
      exact hf
  | cons n p ih =>
      rw [get_cons] at h
      obtain ⟨x, hx, h⟩ := Option.bind_eq_some_iff.mp h
      rw [alter, hx]
      cases x with
      | file b => rfl
      | dir d =>
          dsimp only
          rw [ih (t := d) h]
          exact put_of_find hx

theorem get_alter_retain_file (h : t.Distinct) :
    (t.alter p (retain keep)).get q = some (.file a) ↔
      t.get q = some (.file a) ∧ ∀ n, q = p ++ [n] → keep n a = true := by
  induction p generalizing t q with
  | nil => exact get_retain_file h
  | cons n p ih =>
      rw [alter]
      have hother (hno : ∀ e, t.find n ≠ some (.dir e)) : t.get q = some (.file a) ↔
          t.get q = some (.file a) ∧ ∀ m, q = n :: p ++ [m] → keep m a = true := by
        refine (and_iff_left_of_imp fun hq m hm => ?_).symm
        rw [hm, List.cons_append] at hq
        obtain ⟨e, he⟩ := exists_dir_of_get (p := [n]) hq (by simp)
        rw [get_cons] at he
        obtain ⟨x, hx, he⟩ := Option.bind_eq_some_iff.mp he
        rw [Node.get_nil] at he
        cases he
        exact absurd hx (hno e)
      cases hfind : t.find n with
      | none => exact hother fun e he => nomatch hfind.symm.trans he
      | some x =>
          cases x with
          | file b => exact hother fun e he => nomatch hfind.symm.trans he
          | dir e =>
              cases q with
              | nil => exact iff_of_false nofun fun h => nomatch h.1
              | cons m q =>
                  dsimp only
                  rw [get_put]
                  split_ifs with hnm
                  · subst hnm
                    rw [get_cons, hfind]
                    refine (ih (distinct_find h hfind)).trans (and_congr_right fun _ => ?_)
                    exact forall_congr' fun k => by rw [List.cons_append, List.cons_inj_right]
                  · refine (and_iff_left_of_imp fun _ k hk => absurd ?_ hnm).symm
                    rw [List.cons_append] at hk
                    exact (List.cons.inj hk).1.symm

theorem isDir_alter_retain (h : t.Distinct) : (t.alter p (retain keep)).IsDir q ↔ t.IsDir q := by
  induction p generalizing t q with
  | nil => exact isDir_retain h
  | cons n p ih =>
      rw [alter]
      cases hfind : t.find n with
      | none => rfl
      | some x =>
          cases x with
          | file b => rfl
          | dir e =>
              cases q with
              | nil => exact iff_of_true (isDir_nil _) (isDir_nil t)
              | cons m q =>
                  dsimp only
                  rw [isDir_put]
                  split_ifs with hnm
                  · subst hnm
                    rw [ih (distinct_find h hfind), isDir_cons_of_find hfind]
                  · rfl

/-! ### Beside a name that is taken out -/

/-- Taking a name out does not meet a path that begins with another. -/
theorem erase_mkdirs (h : p.head? ≠ some m) :
    (t.mkdirs p).map (·.erase m) = (t.erase m).mkdirs p := by
  cases p with
  | nil => rfl
  | cons n p =>
      have hne : n ≠ m := fun hnm => h (congrArg some hnm)
      rw [mkdirs, mkdirs, find_erase, if_neg hne.symm]
      cases t.find n with
      | none =>
          dsimp only
          rw [Option.map_map]
          exact congrArg (Option.map · _) (funext fun e => erase_put_of_ne hne)
      | some y =>
          cases y with
          | file a => rfl
          | dir e =>
              dsimp only
              rw [Option.map_map]
              exact congrArg (Option.map · _) (funext fun e => erase_put_of_ne hne)

theorem erase_alter {f : FileTree ν α → FileTree ν α} (h : p.head? ≠ some m) (hp : p ≠ []) :
    (t.alter p f).erase m = (t.erase m).alter p f := by
  cases p with
  | nil => exact absurd rfl hp
  | cons n p =>
      have hne : n ≠ m := fun hnm => h (congrArg some hnm)
      rw [alter, alter, find_erase, if_neg hne.symm]
      cases t.find n with
      | none => rfl
      | some y =>
          cases y with
          | file a => rfl
          | dir e => exact erase_put_of_ne hne

theorem erase_alter_self {f : FileTree ν α → FileTree ν α} :
    (t.alter (n :: p) f).erase n = t.erase n := by
  rw [alter]
  split
  · exact erase_put_self _ _ _
  · rfl

theorem erase_mkdirs_self (h : t.mkdirs (n :: p) = some t') : t'.erase n = t.erase n := by
  rw [mkdirs] at h
  split at h
  · obtain ⟨e, -, rfl⟩ := Option.map_eq_some_iff.mp h
    exact erase_put_self _ _ _
  · obtain ⟨e, -, rfl⟩ := Option.map_eq_some_iff.mp h
    exact erase_put_self _ _ _
  · cases h

end Operations

end FileTree

end Toktier.Lib
