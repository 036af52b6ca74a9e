import Xv6.Fs.Files
import Xv6.Lib.Paths

/-!
# Resolve — what a path means

The names of a path are its elements, cut to `DIRSIZ` bytes.  A name in a directory leads to the inode of
its entry.
-/

namespace Xv6

variable {path rest name : List UInt8} {n : ℕ}

/-- The names of a path. -/
def names (path : List UInt8) : List (List UInt8) := (Paths.elements 47 path).map (List.take DIRSIZ)

theorem skipelem_none (h : skipelem path = none) : names path = [] := by
  unfold skipelem at h
  dsimp only at h
  split_ifs at h with hnil
  rw [names, ← Paths.elements_dropWhile, hnil, Paths.elements_nil]
  rfl

/-- **`skipelem`** takes the first name. -/
theorem skipelem_some (h : skipelem path = some (name, rest)) :
    names path = name :: names rest ∧ (rest = [] ↔ names rest = []) ∧ rest.length < path.length ∧
      ∀ x ∈ rest, x ∈ path := by
  unfold skipelem at h
  dsimp only at h
  split_ifs at h with hne
  generalize hp : path.dropWhile (fun x => decide (x = 47)) = p at h hne
  obtain ⟨rfl, rfl⟩ := Prod.mk.injEq _ _ _ _ ▸ Option.some.inj h
  have hhead : p.head? ≠ some 47 := fun hc => by
    have hnot := List.head?_dropWhile_not (fun x : UInt8 => decide (x = 47)) path
    rw [hp, hc] at hnot
    cases hnot
  have hfirst := Paths.elements_first hne hhead
  rw [← Paths.elements_dropWhile (l := p.dropWhile _)] at hfirst
  have hsuf := (List.dropWhile_suffix (fun x : UInt8 => decide (x = 47)) (l := p.dropWhile (· ≠ 47))).trans
    (List.dropWhile_suffix fun x => decide (x ≠ 47))
  refine ⟨?_, ⟨fun hr => by rw [hr]; rfl, fun hr => ?_⟩, ?_, fun x hx => ?_⟩
  · rw [names, ← Paths.elements_dropWhile, hp, hfirst]
    rfl
  · by_contra hrest
    have hhead' : ((p.dropWhile (· ≠ 47)).dropWhile (· = 47)).head? ≠ some 47 := fun hc => by
      have hnot := List.head?_dropWhile_not (fun x : UInt8 => decide (x = 47)) (p.dropWhile (· ≠ 47))
      rw [hc] at hnot
      cases hnot
    rw [names, Paths.elements_first hrest hhead'] at hr
    cases hr
  · obtain ⟨x, q, rfl⟩ := List.exists_cons_of_ne_nil hne
    have hx : x ≠ 47 := fun hx => hhead (by rw [hx]; rfl)
    have hlen := (List.dropWhile_suffix (fun x : UInt8 => decide (x = 47)) (l := q.dropWhile (· ≠ 47))).length_le
    have hlen' := (List.dropWhile_suffix (fun x : UInt8 => decide (x ≠ 47)) (l := q)).length_le
    have hlen'' := (List.dropWhile_suffix (fun x : UInt8 => decide (x = 47)) (l := path)).length_le
    rw [hp, List.length_cons] at hlen''
    rw [List.dropWhile_cons, if_pos (decide_eq_true hx)]
    omega
  · refine (List.dropWhile_suffix fun x => decide (x = 47)).subset ?_
    rw [hp]
    exact hsuf.subset hx

/-- The bytes of a name without NUL. -/
theorem cstr_chars (h0 : (0 : UInt8) ∉ name) (hn : name.length ≤ n) : cstr n (chars name) = name := by
  induction name generalizing n with
  | nil =>
    cases n with
    | zero => rfl
    | succ n => rfl
  | cons x name ih =>
    cases n with
    | zero => cases hn
    | succ n =>
      have hx : x ≠ 0 := fun hx => h0 (hx ▸ List.mem_cons_self)
      have hcstr := ih (fun h => h0 (List.mem_cons_of_mem x h)) (Nat.succ_le_succ_iff.mp hn)
      rw [cstr, show chars (x :: name) 0 = x from rfl, if_neg hx]
      exact congrArg (x :: ·) hcstr

/-- The names of a string are strings. -/
theorem skipelem_name (h : skipelem path = some (name, rest)) (h0 : (0 : UInt8) ∉ path) :
    cstr DIRSIZ (chars name) = name := by
  unfold skipelem at h
  dsimp only at h
  split_ifs at h
  injection h with h
  injection h with hname _
  rw [← hname]
  refine cstr_chars (fun hmem => h0 ?_) (List.length_take_le _ _)
  exact (List.dropWhile_suffix _).subset (List.takeWhile_subset _ (List.mem_of_mem_take hmem))

theorem names_string (h0 : (0 : UInt8) ∉ path) (h : name ∈ names path) : cstr DIRSIZ (chars name) = name := by
  induction hn : path.length using Nat.strong_induction_on generalizing path with
  | _ n ih =>
    cases hs : skipelem path with
    | none =>
      rw [skipelem_none hs] at h
      cases h
    | some x =>
      obtain ⟨first, rest⟩ := x
      obtain ⟨hnames, -, hlen, hsub⟩ := skipelem_some hs
      rw [hnames] at h
      obtain rfl | h := List.mem_cons.mp h
      · exact skipelem_name hs h0
      · exact ih rest.length (hn ▸ hlen) (fun hmem => h0 (hsub 0 hmem)) h rfl

namespace Fs

variable {sb : superblock} {s s' : Fs} {i : UInt32}

/-- What the name leads to from inode `i`. -/
def child (sb : superblock) (s : Fs) (i : UInt32) (name : List UInt8) : Option UInt32 :=
  if (s.dinodeAt sb i.toNat).type = T_DIR then
    (SlotMap.find (s.slots (s.inodeAt sb i)) (entries (s.inodeAt sb i)) name).map fun x => UInt32.ofNat x.2
  else none

/-- The inode of the path from inode `i`. -/
def resolve (sb : superblock) (s : Fs) (i : UInt32) (path : List UInt8) : Option UInt32 :=
  (names path).foldlM (s.child sb) i

/-- The directory that the last name of the path is to be in, and the name. -/
def resolveParent (sb : superblock) (s : Fs) (i : UInt32) (path : List UInt8) :
    Option (UInt32 × List UInt8) :=
  (Paths.parent (s.child sb) i (names path)).filter fun x => (s.dinodeAt sb x.1.toNat).type = T_DIR

theorem resolve_nil (h : skipelem path = none) : s.resolve sb i path = some i := by
  rw [resolve, skipelem_none h]
  rfl

theorem resolve_cons (h : skipelem path = some (name, rest)) :
    s.resolve sb i path = (s.child sb i name).bind fun j => s.resolve sb j rest := by
  rw [resolve, (skipelem_some h).1, List.foldlM_cons]
  rfl

theorem resolveParent_name {j : UInt32} (h0 : (0 : UInt8) ∉ path)
    (h : s.resolveParent sb i path = some (j, name)) : cstr DIRSIZ (chars name) = name :=
  names_string h0 (Paths.parent_mem (Option.filter_eq_some_iff.mp h).1)

theorem resolveParent_dir {j : UInt32} (h : s.resolveParent sb i path = some (j, name)) :
    (s.dinodeAt sb j.toNat).type = T_DIR := by
  have hx := (Option.filter_eq_some_iff.mp h).2
  exact of_decide_eq_true hx

theorem resolveParent_nil (h : skipelem path = none) : s.resolveParent sb i path = none := by
  rw [resolveParent, skipelem_none h]
  rfl

theorem resolveParent_last (h : skipelem path = some (name, [])) :
    s.resolveParent sb i path = if (s.dinodeAt sb i.toNat).type = T_DIR then some (i, name) else none := by
  rw [resolveParent, (skipelem_some h).1, (skipelem_some h).2.1.mp rfl, Paths.parent_single]
  simp only [Option.filter_some, decide_eq_true_eq]

theorem resolveParent_cons (h : skipelem path = some (name, rest)) (hrest : rest ≠ []) :
    s.resolveParent sb i path = (s.child sb i name).bind fun j => s.resolveParent sb j rest := by
  rw [resolveParent, (skipelem_some h).1, Paths.parent_cons fun hn => hrest ((skipelem_some h).2.1.mpr hn)]
  cases s.child sb i name with
  | none => rfl
  | some j => rfl

end Fs

end Xv6
