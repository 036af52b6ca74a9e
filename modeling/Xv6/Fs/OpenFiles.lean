import Xv6.Kernel.File
import Xv6.Lib.Runs
import Xv6.Mem.Alloc

/-!
# OpenFiles — open-file references are exact

`Ftable.Accounts s R H`: the counts of the file table are the references `R`, and what the files are
open on is accounted for (`Objects`): every end of a pipe is held by one file or has been closed once,
and every inode reference that `open` got is held by a file, by a call (`H`) or has been put.  Each
helper has one rule; between the calls `R` is the multiset of the descriptor slots.
-/

namespace Xv6

/-- What a file is open on. -/
inductive Obj where
  | none
  | pipeEnd (pi : ℕ) (writable : Bool)
  | inode (ip : ℕ)
  deriving DecidableEq

def File.obj (f : File) : Obj :=
  match f.type with
  | .FD_NONE => .none
  | .FD_PIPE => .pipeEnd f.pipe f.writable
  | .FD_INODE | .FD_DEVICE => .inode f.ip

theorem File.obj_eq_none {f : File} : f.obj = .none ↔ f.type = .FD_NONE := by
  unfold File.obj
  cases f.type <;> simp

/-! ## Objects -/

/-- The flags of a pipe and the history of its page agree with the ends that have been closed. -/
structure PipeOk (s : Ftable) (pi : ℕ) : Prop where
  readopen : (s.pipe pi).readopen = true ↔ s.closed pi false = 0
  writeopen : (s.pipe pi).writeopen = true ↔ s.closed pi true = 0
  le_one : ∀ w, s.closed pi w ≤ 1
  freed : s.kfreed pi = if s.closed pi false = 1 ∧ s.closed pi true = 1 then 1 else 0

section Pipeclose

variable {s t : Ftable} {pi pi' : ℕ} {w w' : Bool}

theorem PipeOk.congr (h : PipeOk s pi) (hp : t.pipe pi = s.pipe pi) (hc : t.closed pi = s.closed pi)
    (hk : t.kfreed pi = s.kfreed pi) : PipeOk t pi := by
  refine ⟨?_, ?_, ?_, ?_⟩
  · rw [hp, hc]
    exact h.readopen
  · rw [hp, hc]
    exact h.writeopen
  · rw [hc]
    exact h.le_one
  · rw [hk, hc]
    exact h.freed

theorem closed_pipeclose : (s.pipeclose pi w).closed =
    Function.update s.closed pi (Function.update (s.closed pi) w (s.closed pi w + 1)) := by
  unfold Ftable.pipeclose Ftable.kfree
  dsimp only
  split_ifs <;> rfl

/-- The other pipes. -/
theorem pipeclose_of_ne (hp : pi' ≠ pi) : (s.pipeclose pi w).pipe pi' = s.pipe pi' ∧
    (s.pipeclose pi w).closed pi' = s.closed pi' ∧ (s.pipeclose pi w).kfreed pi' = s.kfreed pi' := by
  unfold Ftable.pipeclose Ftable.kfree
  dsimp only
  split_ifs <;> simp [Function.update_of_ne hp]

/-- What else `pipeclose` leaves alone. -/
theorem pipeclose_frame : (s.pipeclose pi w).file = s.file ∧ (s.pipeclose pi w).pipes = s.pipes ∧
    (s.pipeclose pi w).got = s.got ∧ (s.pipeclose pi w).put = s.put := by
  unfold Ftable.pipeclose Ftable.kfree
  dsimp only
  split_ifs <;> exact ⟨rfl, rfl, rfl, rfl⟩

theorem closed_pipeclose_of_ne (h : ¬ (pi' = pi ∧ w' = w)) :
    (s.pipeclose pi w).closed pi' w' = s.closed pi' w' := by
  rw [closed_pipeclose]
  by_cases hpi : pi' = pi
  · subst hpi
    rw [Function.update_self, Function.update_of_ne fun hw => h ⟨rfl, hw⟩]
  · rw [Function.update_of_ne hpi]

/-- **Closing an end** that is open: the page is freed exactly if the other end is closed. -/
theorem PipeOk.pipeclose (h : PipeOk s pi) (h0 : s.closed pi w = 0) :
    PipeOk (s.pipeclose pi w) pi := by
  have hle := h.le_one
  have hk : s.kfreed pi = 0 := by
    rw [h.freed, if_neg]
    rintro ⟨hf, ht⟩
    cases w <;> omega
  cases w with
  | false =>
    have hw := h.writeopen
    by_cases hopen : (s.pipe pi).writeopen = true
    · have ht := hw.mp hopen
      refine ⟨?_, ?_, fun w => ?_, ?_⟩
      · simp [Ftable.pipeclose, hopen, h0]
      · simp [Ftable.pipeclose, hopen, ht]
      · cases w <;> simp [Ftable.pipeclose, hopen, h0, ht]
      · simp [Ftable.pipeclose, hopen, h0, ht, hk]
    · have ht : s.closed pi true = 1 := by
        have := mt hw.mpr hopen
        have := hle true
        omega
      rw [Bool.not_eq_true] at hopen
      refine ⟨?_, ?_, fun w => ?_, ?_⟩
      · simp [Ftable.pipeclose, Ftable.kfree, hopen, h0]
      · simp [Ftable.pipeclose, Ftable.kfree, hopen, ht]
      · cases w <;> simp [Ftable.pipeclose, Ftable.kfree, hopen, h0, ht]
      · simp [Ftable.pipeclose, Ftable.kfree, hopen, h0, ht, hk]
  | true =>
    have hr := h.readopen
    by_cases hopen : (s.pipe pi).readopen = true
    · have hf := hr.mp hopen
      refine ⟨?_, ?_, fun w => ?_, ?_⟩
      · simp [Ftable.pipeclose, hopen, hf]
      · simp [Ftable.pipeclose, hopen, h0]
      · cases w <;> simp [Ftable.pipeclose, hopen, h0, hf]
      · simp [Ftable.pipeclose, hopen, h0, hf, hk]
    · have hf : s.closed pi false = 1 := by
        have := mt hr.mpr hopen
        have := hle false
        omega
      rw [Bool.not_eq_true] at hopen
      refine ⟨?_, ?_, fun w => ?_, ?_⟩
      · simp [Ftable.pipeclose, Ftable.kfree, hopen, hf]
      · simp [Ftable.pipeclose, Ftable.kfree, hopen, h0]
      · cases w <;> simp [Ftable.pipeclose, Ftable.kfree, hopen, h0, hf]
      · simp [Ftable.pipeclose, Ftable.kfree, hopen, h0, hf, hk]

end Pipeclose

/-- The objects `O` that the files are open on, and the inode references `H` of calls under way,
agree with what has been allocated and released. -/
structure Objects (s : Ftable) (O : Fin NFILE → Obj) (H : Multiset ℕ) : Prop where
  pipe_lt : ∀ f pi w, O f = .pipeEnd pi w → pi < s.pipes
  ends : ∀ pi < s.pipes, ∀ w, s.closed pi w = 0 ∧ (∃ f, O f = .pipeEnd pi w) ∨
    s.closed pi w = 1 ∧ ∀ f, O f ≠ .pipeEnd pi w
  unique : ∀ f g pi w, O f = .pipeEnd pi w → O g = .pipeEnd pi w → f = g
  pipe : ∀ pi < s.pipes, PipeOk s pi
  fresh : ∀ pi, s.pipes ≤ pi → (∀ w, s.closed pi w = 0) ∧ s.kfreed pi = 0
  inodes : ∀ ip, s.got ip =
    s.put ip + H.count ip + (Finset.univ.filter fun f => O f = .inode ip).card

namespace Objects

variable {s : Ftable} {O : Fin NFILE → Obj} {H : Multiset ℕ} {f f0 f1 : Fin NFILE} {pi ip : ℕ}
  {w : Bool} {v : Obj}

/-- A file that is open on something else than an inode does not count for inodes. -/
theorem card_update (hO : O f ≠ .inode ip) (hv : v ≠ .inode ip) :
    (Finset.univ.filter fun g => Function.update O f v g = .inode ip).card =
      (Finset.univ.filter fun g => O g = .inode ip).card := by
  congr 1
  ext g
  by_cases hg : g = f
  · subst hg
    simp [hO, hv]
  · simp [Function.update_of_ne hg]

/-- One file more is open on an inode. -/
theorem card_update_inode (hO : O f ≠ .inode ip) :
    (Finset.univ.filter fun g => Function.update O f (.inode ip) g = .inode ip).card =
      (Finset.univ.filter fun g => O g = .inode ip).card + 1 := by
  rw [← Finset.card_insert_of_notMem (a := f) (by simp [hO])]
  congr 1
  ext g
  by_cases hg : g = f
  · subst hg
    simp
  · simp [hg]

theorem eq_of_update (h : Function.update O f .none f0 = .pipeEnd pi w) :
    f0 ≠ f ∧ O f0 = .pipeEnd pi w := by
  by_cases hf : f0 = f
  · rw [hf, Function.update_self] at h
    cases h
  · rw [Function.update_of_ne hf] at h
    exact ⟨hf, h⟩

/-- An end that a file is open on has not been closed. -/
theorem closed_eq_zero (h : Objects s O H) (hf : O f = .pipeEnd pi w) : s.closed pi w = 0 := by
  rcases h.ends pi (h.pipe_lt f pi w hf) w with ⟨h0, -⟩ | ⟨-, hno⟩
  · exact h0
  · exact absurd hf (hno f)

/-- **Closing an end of a pipe.** -/
theorem pipeclose (h : Objects s O H) (hf : O f = .pipeEnd pi w) :
    Objects (s.pipeclose pi w) (Function.update O f .none) H := by
  have h0 := h.closed_eq_zero hf
  have hlt := h.pipe_lt f pi w hf
  obtain ⟨-, hpipes, hgot, hput⟩ := pipeclose_frame (s := s) (w := w)
  refine ⟨fun g pi' w' hg => ?_, fun pi' hpi' w' => ?_, fun g g' pi' w' hg hg' => ?_,
    fun pi' hpi' => ?_, fun pi' hpi' => ?_, fun ip => ?_⟩
  · rw [hpipes]
    exact h.pipe_lt g pi' w' (eq_of_update hg).2
  · rw [hpipes] at hpi'
    by_cases hend : pi' = pi ∧ w' = w
    · obtain ⟨rfl, rfl⟩ := hend
      refine .inr ⟨?_, fun g hg => ?_⟩
      · rw [closed_pipeclose, Function.update_self, Function.update_self, h0]
      · obtain ⟨hgf, hg⟩ := eq_of_update hg
        exact hgf (h.unique g f _ _ hg hf)
    · rw [closed_pipeclose_of_ne hend]
      rcases h.ends pi' hpi' w' with ⟨hc, g, hg⟩ | ⟨hc, hno⟩
      · refine .inl ⟨hc, g, ?_⟩
        have hgf : g ≠ f := by
          rintro rfl
          rw [hf] at hg
          cases hg
          exact hend ⟨rfl, rfl⟩
        rw [Function.update_of_ne hgf, hg]
      · exact .inr ⟨hc, fun g hg => hno g (eq_of_update hg).2⟩
  · exact h.unique g g' pi' w' (eq_of_update hg).2 (eq_of_update hg').2
  · rw [hpipes] at hpi'
    by_cases hp : pi' = pi
    · subst hp
      exact (h.pipe pi' hpi').pipeclose h0
    · obtain ⟨h1, h2, h3⟩ := pipeclose_of_ne (s := s) (w := w) hp
      exact (h.pipe pi' hpi').congr h1 h2 h3
  · rw [hpipes] at hpi'
    have hp : pi' ≠ pi := by
      rintro rfl
      exact absurd hlt (not_lt.mpr hpi')
    obtain ⟨-, h2, h3⟩ := pipeclose_of_ne (s := s) (w := w) hp
    rw [h2, h3]
    exact h.fresh pi' hpi'
  · rw [hgot, hput, card_update (by simp [hf]) (by simp)]
    exact h.inodes ip

/-- A file that is not open on a pipe before or after. -/
theorem swap {t : Ftable} {H' : Multiset ℕ} (h : Objects s O H) (hO : ∀ pi w, O f ≠ .pipeEnd pi w)
    (hv : ∀ pi w, v ≠ .pipeEnd pi w) (hpipe : t.pipe = s.pipe) (hpipes : t.pipes = s.pipes)
    (hc : t.closed = s.closed) (hk : t.kfreed = s.kfreed)
    (hin : ∀ ip, t.got ip = t.put ip + H'.count ip +
      (Finset.univ.filter fun g => Function.update O f v g = .inode ip).card) :
    Objects t (Function.update O f v) H' := by
  have key : ∀ g pi w, Function.update O f v g = .pipeEnd pi w ↔ O g = .pipeEnd pi w := by
    intro g pi w
    by_cases hg : g = f
    · subst hg
      simp [hO, hv]
    · rw [Function.update_of_ne hg]
  refine ⟨fun g pi w hg => ?_, fun pi hpi w => ?_, fun g g' pi w hg hg' => ?_, fun pi hpi => ?_,
    fun pi hpi => ?_, hin⟩
  · rw [hpipes]
    exact h.pipe_lt g pi w ((key g pi w).mp hg)
  · rw [hpipes] at hpi
    simp only [hc, key, ne_eq]
    exact h.ends pi hpi w
  · exact h.unique g g' pi w ((key g pi w).mp hg) ((key g' pi w).mp hg')
  · rw [hpipes] at hpi
    exact (h.pipe pi hpi).congr (by rw [hpipe]) (by rw [hc]) (by rw [hk])
  · rw [hpipes] at hpi
    rw [hc, hk]
    exact h.fresh pi hpi

/-- **Putting an inode reference** that a file holds. -/
theorem iput (h : Objects s O H) (hf : O f = .inode ip) :
    Objects (s.iput ip) (Function.update O f .none) H := by
  refine h.swap (by simp [hf]) (by simp) rfl rfl rfl rfl fun ip' => ?_
  have hin := h.inodes ip'
  simp only [Ftable.iput]
  by_cases hip : ip' = ip
  · subst hip
    have hcard := @card_update_inode (Function.update O f .none) f ip' (by simp)
    have hO : Function.update (Function.update O f .none) f (.inode ip') = O := by
      rw [Function.update_idem, ← hf, Function.update_eq_self]
    rw [hO] at hcard
    rw [Function.update_self, hin, hcard]
    omega
  · rw [Function.update_of_ne hip, card_update (by simp [hf, Ne.symm hip]) (by simp)]
    exact hin

/-- **Opening** a file on an inode that the call has a reference to. -/
theorem openInode (h : Objects s O (ip ::ₘ H)) (hf : O f = .none) :
    Objects s (Function.update O f (.inode ip)) H := by
  refine h.swap (by simp [hf]) (by simp) rfl rfl rfl rfl fun ip' => ?_
  have hin := h.inodes ip'
  by_cases hip : ip' = ip
  · subst hip
    rw [Multiset.count_cons_self] at hin
    rw [card_update_inode (by simp [hf]), hin]
    omega
  · rw [Multiset.count_cons_of_ne hip] at hin
    rw [card_update (by simp [hf]) (by simp [Ne.symm hip])]
    exact hin

theorem iget (h : Objects s O H) (ip : ℕ) : Objects (s.iget ip) O (ip ::ₘ H) := by
  refine ⟨h.pipe_lt, h.ends, h.unique, fun pi hpi => (h.pipe pi hpi).congr rfl rfl rfl, h.fresh,
    fun ip' => ?_⟩
  have hin := h.inodes ip'
  simp only [Ftable.iget]
  by_cases hip : ip' = ip
  · subst hip
    rw [Function.update_self, Multiset.count_cons_self, hin]
    omega
  · rw [Function.update_of_ne hip, Multiset.count_cons_of_ne hip, hin]

/-- Putting the reference of a call. -/
theorem iput_call (h : Objects s O (ip ::ₘ H)) : Objects (s.iput ip) O H := by
  refine ⟨h.pipe_lt, h.ends, h.unique, fun pi hpi => (h.pipe pi hpi).congr rfl rfl rfl, h.fresh,
    fun ip' => ?_⟩
  have hin := h.inodes ip'
  simp only [Ftable.iput]
  by_cases hip : ip' = ip
  · subst hip
    rw [Multiset.count_cons_self] at hin
    rw [Function.update_self, hin]
    omega
  · rw [Multiset.count_cons_of_ne hip] at hin
    rw [Function.update_of_ne hip, hin]

theorem newPipe_iff {g : Fin NFILE} {n : ℕ} (h0 : O f0 = .none) (h1 : O f1 = .none)
    (hne : f0 ≠ f1) : Function.update (Function.update O f0 (.pipeEnd n false)) f1
      (.pipeEnd n true) g = .pipeEnd pi w ↔
    pi = n ∧ (w = false ∧ g = f0 ∨ w = true ∧ g = f1) ∨ O g = .pipeEnd pi w := by
  by_cases hg1 : g = f1
  · subst hg1
    cases w <;> simp [h1, hne.symm, eq_comm]
  · by_cases hg0 : g = f0
    · subst hg0
      cases w <;> simp [h0, hne, eq_comm]
    · simp [hg0, hg1]

/-- **A new pipe.** -/
theorem newPipe (h : Objects s O H) (h0 : O f0 = .none) (h1 : O f1 = .none) (hne : f0 ≠ f1) :
    Objects (s.newPipe f0 f1) (Function.update (Function.update O f0 (.pipeEnd s.pipes false)) f1
      (.pipeEnd s.pipes true)) H := by
  have hpipes : (s.newPipe f0 f1).pipes = s.pipes + 1 := rfl
  have hclosed : (s.newPipe f0 f1).closed = s.closed := rfl
  have hkfreed : (s.newPipe f0 f1).kfreed = s.kfreed := rfl
  have hpipe : (s.newPipe f0 f1).pipe =
      Function.update s.pipe s.pipes { readopen := true, writeopen := true } := rfl
  obtain ⟨hc0, hk0⟩ := h.fresh s.pipes (le_refl _)
  refine ⟨fun g pi w hg => ?_, fun pi hpi w => ?_, fun g g' pi w hg hg' => ?_, fun pi hpi => ?_,
    fun pi hpi => ?_, fun ip => ?_⟩
  · rw [hpipes]
    rcases (newPipe_iff h0 h1 hne).mp hg with ⟨rfl, -⟩ | hg
    · exact Nat.lt_succ_self _
    · exact Nat.lt_succ_of_lt (h.pipe_lt g pi w hg)
  · rw [hclosed]
    rw [hpipes] at hpi
    simp only [ne_eq, newPipe_iff h0 h1 hne]
    by_cases hp : pi = s.pipes
    · subst hp
      refine .inl ⟨hc0 w, ?_⟩
      cases w with
      | false => exact ⟨f0, .inl ⟨rfl, .inl ⟨rfl, rfl⟩⟩⟩
      | true => exact ⟨f1, .inl ⟨rfl, .inr ⟨rfl, rfl⟩⟩⟩
    · simp only [hp, false_and, false_or]
      exact h.ends pi (by omega) w
  · rcases (newPipe_iff h0 h1 hne).mp hg with ⟨rfl, hw⟩ | hg <;>
      rcases (newPipe_iff h0 h1 hne).mp hg' with ⟨hp, hw'⟩ | hg'
    · rcases hw with ⟨rfl, rfl⟩ | ⟨rfl, rfl⟩ <;> rcases hw' with ⟨hw, rfl⟩ | ⟨hw, rfl⟩ <;>
        first | rfl | cases hw
    · exact absurd (h.pipe_lt g' _ w hg') (lt_irrefl _)
    · subst hp
      exact absurd (h.pipe_lt g _ w hg) (lt_irrefl _)
    · exact h.unique g g' pi w hg hg'
  · rw [hpipes] at hpi
    by_cases hp : pi = s.pipes
    · subst hp
      refine ⟨?_, ?_, fun w => ?_, ?_⟩
      · simp [hpipe, hclosed, hc0]
      · simp [hpipe, hclosed, hc0]
      · simp [hclosed, hc0]
      · simp [hclosed, hkfreed, hc0, hk0]
    · refine (h.pipe pi (by omega)).congr ?_ (by rw [hclosed]) (by rw [hkfreed])
      rw [hpipe, Function.update_of_ne hp]
  · rw [hpipes] at hpi
    rw [hclosed, hkfreed]
    exact h.fresh pi (by omega)
  · rw [card_update (by rw [Function.update_of_ne hne.symm, h1]; simp) (by simp),
      card_update (by rw [h0]; simp) (by simp)]
    exact h.inodes ip

end Objects

/-! ## The file table -/

/-- The file table accounts for the references `R` to its entries. -/
structure Ftable.Accounts (s : Ftable) (R : Multiset (Fin NFILE)) (H : Multiset ℕ) : Prop where
  ref : ∀ f, (s.file f).ref = R.count f
  idle : ∀ f, f ∉ R → (s.file f).obj = .none
  objects : Objects s (fun f => (s.file f).obj) H

namespace Ftable

variable {s t : Ftable} {R : Multiset (Fin NFILE)} {H : Multiset ℕ} {f f0 f1 : Fin NFILE} {v : File}

theorem obj_set : (fun g => ((s.set f v).file g).obj) =
    Function.update (fun g => (s.file g).obj) f v.obj := by
  funext g
  by_cases hg : g = f
  · subst hg
    simp [set]
  · simp [set, Function.update_of_ne hg]

/-- Objects are about the histories, not the table. -/
theorem objects_set {O : Fin NFILE → Obj} (h : Objects s O H) : Objects (s.set f v) O H :=
  ⟨h.pipe_lt, h.ends, h.unique, fun pi hpi => (h.pipe pi hpi).congr rfl rfl rfl, h.fresh, h.inodes⟩

namespace Accounts

theorem fileinit : fileinit.Accounts 0 0 := by
  refine ⟨fun f => ?_, fun f _ => rfl, ?_, ?_, ?_, ?_, ?_, ?_⟩
  · simp [Ftable.fileinit]
  · intro f pi w hf
    cases hf
  · intro pi hpi
    exact absurd hpi (Nat.not_lt_zero pi)
  · intro f g pi w hf
    cases hf
  · intro pi hpi
    exact absurd hpi (Nat.not_lt_zero pi)
  · exact fun pi _ => ⟨fun _ => rfl, rfl⟩
  · intro ip
    simp [Ftable.fileinit, File.obj]

/-- An entry whose count is set to the new number of references, open on what it was open on. -/
theorem recount (h : s.Accounts R H) {R' : Multiset (Fin NFILE)} (hv : v.obj = (s.file f).obj)
    (hR : ∀ g, g ≠ f → R'.count g = R.count g) (hf : v.ref = R'.count f) (hmem : f ∈ R') :
    (s.set f v).Accounts R' H := by
  have hobj : (fun g => ((s.set f v).file g).obj) = fun g => (s.file g).obj := by
    rw [obj_set, hv, Function.update_eq_self]
  refine ⟨fun g => ?_, fun g hg => ?_, ?_⟩
  · by_cases hgf : g = f
    · subst hgf
      simpa [set] using hf
    · simp only [set, Function.update_of_ne hgf, hR g hgf]
      exact h.ref g
  · have hgf : g ≠ f := by
      rintro rfl
      exact hg hmem
    refine (congrFun hobj g).trans (h.idle g ?_)
    rwa [← Multiset.count_eq_zero, ← hR g hgf, Multiset.count_eq_zero]
  · rw [hobj]
    exact objects_set h.objects

/-- **`filealloc`** finds an entry nobody refers to, open on nothing. -/
theorem filealloc (h : s.Accounts R H) (hs : s.filealloc = some (f, t)) :
    t.Accounts (f ::ₘ R) H ∧ f ∉ R ∧ (t.file f).obj = .none ∧
      ∀ g, g ≠ f → t.file g = s.file g := by
  unfold Ftable.filealloc at hs
  obtain ⟨f', hf, hft⟩ := Option.map_eq_some_iff.mp hs
  cases hft
  have h0 : (s.file f).ref = 0 := by simpa using List.find?_some hf
  have hfR : f ∉ R := by
    rw [← Multiset.count_eq_zero]
    have := h.ref f
    omega
  have hobj := h.idle f hfR
  refine ⟨h.recount rfl (fun g hg => Multiset.count_cons_of_ne hg _) ?_ (Multiset.mem_cons_self f R),
    hfR, ?_, fun g hg => Function.update_of_ne hg _ _⟩
  · rw [Multiset.count_cons_self, Multiset.count_eq_zero.mpr hfR]
    rfl
  · simpa [set, File.obj] using hobj

/-- **`filedup`** on a file that somebody refers to. -/
theorem filedup (h : s.Accounts R H) (hf : f ∈ R) (hlt : R.count f + 1 < 2147483648) :
    ∃ t, s.filedup f = .ok t ∧ t.Accounts (f ::ₘ R) H := by
  have href := h.ref f
  have hpos := Multiset.count_pos.mpr hf
  refine ⟨_, if_neg (by omega), h.recount rfl (fun g hg => Multiset.count_cons_of_ne hg _) ?_
    (Multiset.mem_cons_self f R)⟩
  rw [Multiset.count_cons_self]
  show int32 ((s.file f).ref + 1) = _
  rw [href, int32_of_lt (by omega) (by omega)]
  rfl

/-- The last reference is gone and the file is open on nothing. -/
theorem last (h : s.Accounts (f ::ₘ R) H) (hf : f ∉ R) (hv : v.obj = .none) (href : v.ref = 0)
    (hfile : t.file = (s.set f v).file)
    (hobjs : Objects t (Function.update (fun g => (s.file g).obj) f .none) H) :
    t.Accounts R H := by
  have hobj : (fun g => (t.file g).obj) = Function.update (fun g => (s.file g).obj) f .none := by
    rw [hfile, obj_set, hv]
  refine ⟨fun g => ?_, fun g hg => ?_, by rw [hobj]; exact hobjs⟩
  · by_cases hgf : g = f
    · subst hgf
      rw [hfile, Multiset.count_eq_zero.mpr hf]
      simpa [set] using href
    · rw [hfile]
      simp only [set, Function.update_of_ne hgf]
      rw [h.ref g, Multiset.count_cons_of_ne hgf]
  · refine (congrFun hobj g).trans ?_
    by_cases hgf : g = f
    · rw [hgf, Function.update_self]
    · rw [Function.update_of_ne hgf]
      refine h.idle g fun hm => ?_
      exact (Multiset.mem_cons.mp hm).elim hgf hg

/-- **`fileclose`** by one of those who refer to the file. -/
theorem fileclose (h : s.Accounts (f ::ₘ R) H) :
    ∃ t, s.fileclose f = .ok t ∧ t.Accounts R H := by
  have href := h.ref f
  rw [Multiset.count_cons_self] at href
  unfold Ftable.fileclose
  dsimp only
  rw [if_neg (by omega)]
  by_cases hf : f ∈ R
  · have hpos := Multiset.count_pos.mpr hf
    rw [if_pos (by omega)]
    refine ⟨_, rfl, h.recount rfl (fun g hg => (Multiset.count_cons_of_ne hg R).symm) ?_ hf⟩
    rw [href]
    push_cast
    omega
  · rw [if_neg (by rw [Multiset.count_eq_zero.mpr hf] at href; omega)]
    -- the entry is cleared before its object is released
    have hobjs := objects_set (f := f)
      (v := { s.file f with ref := 0, type := .FD_NONE }) h.objects
    cases htype : (s.file f).type with
    | FD_NONE =>
      have hO : (s.file f).obj = .none := by rw [File.obj, htype]
      refine ⟨_, rfl, h.last hf rfl rfl rfl ?_⟩
      rw [← hO, Function.update_eq_self]
      exact hobjs
    | FD_PIPE =>
      have hO : (s.file f).obj = .pipeEnd (s.file f).pipe (s.file f).writable := by
        rw [File.obj, htype]
      exact ⟨_, rfl, h.last hf rfl rfl pipeclose_frame.1 (hobjs.pipeclose hO)⟩
    | FD_INODE =>
      have hO : (s.file f).obj = .inode (s.file f).ip := by rw [File.obj, htype]
      exact ⟨_, rfl, h.last hf rfl rfl rfl (hobjs.iput hO)⟩
    | FD_DEVICE =>
      have hO : (s.file f).obj = .inode (s.file f).ip := by rw [File.obj, htype]
      exact ⟨_, rfl, h.last hf rfl rfl rfl (hobjs.iput hO)⟩

/-- An entry is opened: its count stays. -/
theorem reopen (h : s.Accounts R H) {H' : Multiset ℕ} (href : v.ref = (s.file f).ref) (hf : f ∈ R)
    (hobjs : Objects s (Function.update (fun g => (s.file g).obj) f v.obj) H') :
    (s.set f v).Accounts R H' := by
  refine ⟨fun g => ?_, fun g hg => ?_, by rw [obj_set]; exact objects_set hobjs⟩
  · by_cases hgf : g = f
    · subst hgf
      simpa [set, href] using h.ref g
    · simp only [set, Function.update_of_ne hgf]
      exact h.ref g
  · have hgf : g ≠ f := by
      rintro rfl
      exact hg hf
    simp only [set, Function.update_of_ne hgf]
    exact h.idle g hg

/-- **Opening** an inode that the call has a reference to. -/
theorem openInode {ip : ℕ} (h : s.Accounts R (ip ::ₘ H)) (hf : f ∈ R)
    (hnone : (s.file f).obj = .none) (hv : v.obj = .inode ip) (href : v.ref = (s.file f).ref) :
    (s.set f v).Accounts R H := by
  refine h.reopen href hf ?_
  rw [hv]
  exact h.objects.openInode hnone

/-- **A new pipe.** -/
theorem newPipe (h : s.Accounts R H) (h0 : f0 ∈ R) (h1 : f1 ∈ R) (hne : f0 ≠ f1)
    (hn0 : (s.file f0).obj = .none) (hn1 : (s.file f1).obj = .none) :
    (s.newPipe f0 f1).Accounts R H := by
  have hobjs := h.objects.newPipe hn0 hn1 hne
  have hobj : (fun g => ((s.newPipe f0 f1).file g).obj) = Function.update (Function.update
      (fun g => (s.file g).obj) f0 (.pipeEnd s.pipes false)) f1 (.pipeEnd s.pipes true) := by
    unfold Ftable.newPipe
    dsimp only
    rw [obj_set, obj_set]
    rfl
  refine ⟨fun g => ?_, fun g hg => ?_, by rw [hobj]; exact hobjs⟩
  · rw [← h.ref g]
    by_cases hg1 : g = f1
    · subst hg1
      simp [Ftable.newPipe, set, Function.update_of_ne hne.symm]
    · by_cases hg0 : g = f0
      · subst hg0
        simp [Ftable.newPipe, set, Function.update_of_ne hne]
      · simp [Ftable.newPipe, set, hg0, hg1]
  · refine (congrFun hobj g).trans ?_
    have hg1 : g ≠ f1 := by
      rintro rfl
      exact hg h1
    have hg0 : g ≠ f0 := by
      rintro rfl
      exact hg h0
    rw [Function.update_of_ne hg1, Function.update_of_ne hg0]
    exact h.idle g hg

/-- **`pipealloc`** gives two references to the two ends of a new pipe, or none. -/
theorem pipealloc (h : s.Accounts R H) (page : Bool) : ∃ r t, s.pipealloc page = .ok (r, t) ∧
    match r with
    | none => t.Accounts R H
    | some (f0, f1) => t.Accounts (f1 ::ₘ f0 ::ₘ R) H := by
  unfold Ftable.pipealloc
  cases h0 : s.filealloc with
  | none => exact ⟨none, s, rfl, h⟩
  | some r0 =>
    obtain ⟨f0, s0⟩ := r0
    obtain ⟨hs0, -, hn0, -⟩ := h.filealloc h0
    dsimp only
    cases h1 : s0.filealloc with
    | none =>
      obtain ⟨t, ht, hacc⟩ := hs0.fileclose
      exact ⟨none, t, by rw [ht]; rfl, hacc⟩
    | some r1 =>
      obtain ⟨f1, s1⟩ := r1
      obtain ⟨hs1, hf1, hn1, hold⟩ := hs0.filealloc h1
      dsimp only
      cases page with
      | true =>
        have hne : f0 ≠ f1 := fun he => hf1 (he ▸ Multiset.mem_cons_self f0 R)
        refine ⟨some (f0, f1), _, rfl, hs1.newPipe ?_ ?_ hne ?_ hn1⟩
        · exact Multiset.mem_cons_of_mem (Multiset.mem_cons_self f0 R)
        · exact Multiset.mem_cons_self f1 _
        · rw [hold f0 hne]
          exact hn0
      | false =>
        rw [Multiset.cons_swap] at hs1
        obtain ⟨t, ht, hacc⟩ := hs1.fileclose
        obtain ⟨t', ht', hacc'⟩ := hacc.fileclose
        refine ⟨none, t', ?_, hacc'⟩
        rw [if_neg Bool.false_ne_true, ht]
        show (t.fileclose f1 >>= fun s => pure (none, s)) = _
        rw [ht']
        rfl

end Accounts

end Ftable

/-! ## The calls -/

/-- A computation that goes on after a call. -/
theorem bind_eq_ok {α β : Type} {x : Except Panic α} {g : α → Except Panic β} {a : α} {b : β}
    (hx : x = .ok a) (hg : g a = .ok b) : (x >>= g) = .ok b := by
  rw [hx]
  exact hg

namespace FileSys

variable {s t : FileSys} {H : Multiset ℕ} {p np : Fin NPROC} {f : Fin NFILE} {fd : Fin NOFILE}
  {fds : List (Fin NOFILE)} {n : ℤ}

/-- **Between calls** the references are the descriptor slots, and only processes that make calls
have descriptors. -/
structure Ok (s : FileSys) : Prop where
  tab : s.tab.Accounts (Slots.refs s.ofile) 0
  dead : ∀ p, s.state p = .UNUSED ∨ s.state p = .ZOMBIE → ∀ fd, s.ofile p fd = none

theorem Ok.init : userinit.Ok := by
  have hrefs : Slots.refs userinit.ofile = 0 := by
    rw [Slots.refs]
    exact Finset.sum_eq_zero fun _ _ => rfl
  refine ⟨?_, fun _ _ _ => rfl⟩
  rw [hrefs]
  exact Ftable.Accounts.fileinit

theorem count_lt (T : Fin NPROC → Fin NOFILE → Option (Fin NFILE)) (f : Fin NFILE) :
    (Slots.refs T).count f + 1 < 2147483648 := by
  have h1 := Multiset.count_le_card f (Slots.refs T)
  have h2 := Slots.card_refs_le T
  rw [Fintype.card_fin, Fintype.card_fin] at h2
  unfold NPROC NOFILE at h2
  omega

theorem argfd_ok (h : s.argfd p n = some (fd, f)) : s.ofile p fd = some f := by
  unfold argfd at h
  split_ifs at h with hn
  obtain ⟨g, hg, he⟩ := Option.map_eq_some_iff.mp h
  cases he
  exact hg

/-- A free slot is filled. -/
theorem fdalloc_ok (h : s.fdalloc p f = some (fd, t)) :
    s.ofile p fd = none ∧ t = s.setFd p fd (some f) := by
  unfold fdalloc at h
  obtain ⟨g, hg, he⟩ := Option.map_eq_some_iff.mp h
  cases he
  exact ⟨by simpa using List.find?_some hg, rfl⟩

/-- Only process `p` has been given or has lost descriptors. -/
def SameOthers (p : Fin NPROC) (s t : FileSys) : Prop :=
  t.state = s.state ∧ ∀ q, q ≠ p → t.ofile q = s.ofile q

/-- A call of process `p`, which is alive. -/
theorem Ok.of_call (h : s.Ok) (hp : s.alive p = true) (hsame : SameOthers p s t)
    (htab : t.tab.Accounts (Slots.refs t.ofile) 0) : t.Ok := by
  refine ⟨htab, fun q hq fd => ?_⟩
  rw [hsame.1] at hq
  have hqp : q ≠ p := by
    rintro rfl
    simp only [alive, ne_eq, Bool.decide_and, Bool.and_eq_true, decide_eq_true_eq] at hp
    exact hq.elim hp.1 hp.2
  rw [hsame.2 q hqp]
  exact h.dead q hq fd

theorem SameOthers.set {v : Option (Fin NFILE)} (hs : t.state = s.state)
    (ho : t.ofile = Slots.set s.ofile p fd v) : SameOthers p s t := by
  refine ⟨hs, fun q hq => ?_⟩
  rw [ho]
  exact Function.update_of_ne hq _ _

theorem sys_dup_ok (h : s.Ok) (hp : s.alive p = true) :
    ∃ r t, s.sys_dup p n = .ok (r, t) ∧ t.Ok := by
  unfold sys_dup
  cases ha : s.argfd p n with
  | none => exact ⟨-1, s, rfl, h⟩
  | some x =>
    obtain ⟨fd0, f⟩ := x
    dsimp only
    cases hd : s.fdalloc p f with
    | none => exact ⟨-1, s, rfl, h⟩
    | some y =>
      obtain ⟨fd, s₁⟩ := y
      obtain ⟨hfree, rfl⟩ := fdalloc_ok hd
      have hf : f ∈ Slots.refs s.ofile := Slots.mem_refs (argfd_ok ha)
      obtain ⟨tab, ht, hacc⟩ := h.tab.filedup hf (count_lt _ f)
      refine ⟨_, _, bind_eq_ok ht rfl, h.of_call hp (SameOthers.set rfl rfl) ?_⟩
      show tab.Accounts (Slots.refs (Slots.set s.ofile p fd (some f))) 0
      rw [Slots.refs_fill hfree]
      exact hacc

theorem sys_close_ok (h : s.Ok) (hp : s.alive p = true) :
    ∃ r t, s.sys_close p n = .ok (r, t) ∧ t.Ok := by
  unfold sys_close
  cases ha : s.argfd p n with
  | none => exact ⟨-1, s, rfl, h⟩
  | some x =>
    obtain ⟨fd, f⟩ := x
    have hacc := h.tab
    rw [Slots.refs_clear (argfd_ok ha)] at hacc
    obtain ⟨tab, ht, hacc⟩ := hacc.fileclose
    exact ⟨_, _, bind_eq_ok ht rfl, h.of_call hp (SameOthers.set rfl rfl) hacc⟩

theorem sys_open_ok (h : s.Ok) (hp : s.alive p = true) (target : Option OpenTarget) (omode : ℕ) :
    ∃ r t, s.sys_open p target omode = .ok (r, t) ∧ t.Ok := by
  unfold sys_open
  cases target with
  | none => exact ⟨-1, s, rfl, h⟩
  | some o =>
    have hgot : (s.tab.iget o.ip).Accounts (Slots.refs s.ofile) {o.ip} :=
      ⟨h.tab.ref, h.tab.idle, h.tab.objects.iget o.ip⟩
    have hput : ∀ {tab : Ftable}, tab.Accounts (Slots.refs s.ofile) {o.ip} →
        (tab.iput o.ip).Accounts (Slots.refs s.ofile) 0 :=
      fun hacc => ⟨hacc.ref, hacc.idle, hacc.objects.iput_call⟩
    dsimp only
    cases hf : (s.tab.iget o.ip).filealloc with
    | none =>
      have : (s.tab.iget o.ip |>.iput o.ip).Accounts (Slots.refs s.ofile) 0 := hput hgot
      exact ⟨_, _, rfl, h.of_call hp ⟨rfl, fun _ _ => rfl⟩ this⟩
    | some x =>
      obtain ⟨f, tab⟩ := x
      obtain ⟨hacc, -, hnone, -⟩ := hgot.filealloc hf
      dsimp only
      cases hd : fdalloc p f { s with tab := tab } with
      | none =>
        obtain ⟨tab', ht, hacc'⟩ := hacc.fileclose
        exact ⟨_, _, bind_eq_ok ht rfl, h.of_call hp ⟨rfl, fun _ _ => rfl⟩ (hput hacc')⟩
      | some y =>
        obtain ⟨fd, s₁⟩ := y
        obtain ⟨hfree, rfl⟩ := fdalloc_ok hd
        refine ⟨_, _, rfl, h.of_call hp (SameOthers.set rfl rfl) ?_⟩
        have hmem := Multiset.mem_cons_self f (Slots.refs s.ofile)
        show Ftable.Accounts _ (Slots.refs (Slots.set s.ofile p fd (some f))) 0
        rw [Slots.refs_fill hfree]
        refine hacc.openInode hmem hnone ?_ ?_
        · cases o.device <;> rfl
        · cases o.device <;> rfl

/-- Both files of a pipe are closed again. -/
theorem close_both {tab : Ftable} {R : Multiset (Fin NFILE)} {rf wf : Fin NFILE}
    (h : tab.Accounts (wf ::ₘ rf ::ₘ R) 0) : ∃ tab' tab'', tab.fileclose rf = .ok tab' ∧
      tab'.fileclose wf = .ok tab'' ∧ tab''.Accounts R 0 := by
  rw [Multiset.cons_swap] at h
  obtain ⟨tab', h1, hacc⟩ := h.fileclose
  obtain ⟨tab'', h2, hacc⟩ := hacc.fileclose
  exact ⟨tab', tab'', h1, h2, hacc⟩

theorem sys_pipe_ok (h : s.Ok) (hp : s.alive p = true) (page out : Bool) :
    ∃ r t, s.sys_pipe p page out = .ok (r, t) ∧ t.Ok := by
  unfold sys_pipe
  obtain ⟨r, tab, hr, hacc⟩ := h.tab.pipealloc page
  rw [hr]
  cases r with
  | none => exact ⟨_, _, rfl, h.of_call hp ⟨rfl, fun _ _ => rfl⟩ hacc⟩
  | some x =>
    obtain ⟨rf, wf⟩ := x
    obtain ⟨tab', tab'', h1, h2, hacc'⟩ := close_both hacc
    simp only [bind, Except.bind]
    cases hd0 : fdalloc p rf { s with tab := tab } with
    | none =>
      exact ⟨_, _, bind_eq_ok h1 (bind_eq_ok h2 rfl), h.of_call hp ⟨rfl, fun _ _ => rfl⟩ hacc'⟩
    | some y =>
      obtain ⟨fd0, s₁⟩ := y
      obtain ⟨hfree0, rfl⟩ := fdalloc_ok hd0
      dsimp only
      cases hd1 : fdalloc p wf (setFd { s with tab := tab } p fd0 (some rf)) with
      | none =>
        refine ⟨_, _, bind_eq_ok h1 (bind_eq_ok h2 rfl), h.of_call hp ⟨rfl, fun q hq => ?_⟩ ?_⟩
        · simp only [setFd]
          rw [Slots.set_set_eq hfree0]
        · simp only [setFd]
          rw [Slots.set_set_eq hfree0]
          exact hacc'
      | some z =>
        obtain ⟨fd1, s₂⟩ := z
        obtain ⟨hfree1, rfl⟩ := fdalloc_ok hd1
        simp only [setFd] at hfree0 hfree1
        have hne : fd0 ≠ fd1 := by
          rintro rfl
          rw [Slots.set_self] at hfree1
          cases hfree1
        cases out with
        | true =>
          refine ⟨_, _, rfl, h.of_call hp ?_ ?_⟩
          · refine ⟨rfl, fun q hq => ?_⟩
            exact (Function.update_of_ne hq _ _).trans (Function.update_of_ne hq _ _)
          · simp only [setFd]
            rw [Slots.refs_fill hfree1, Slots.refs_fill hfree0]
            exact hacc
        | false =>
          -- the slots are cleared in the order they were filled
          have hback : Slots.set (Slots.set (Slots.set (Slots.set s.ofile p fd0 (some rf)) p fd1
              (some wf)) p fd0 none) p fd1 none = s.ofile := by
            rw [Slots.set_comm hne, Slots.set_set_eq hfree1, Slots.set_set_eq hfree0]
          refine ⟨_, _, bind_eq_ok h1 (bind_eq_ok h2 rfl), h.of_call hp ⟨rfl, fun q hq => ?_⟩ ?_⟩
          · simp only [setFd]
            rw [hback]
          · simp only [setFd]
            rw [hback]
            exact hacc'

/-- The loop of `fork`: the slots of the child that are still to be filled are empty. -/
theorem dupFiles_ok (hacc : s.tab.Accounts (Slots.refs s.ofile) 0) (hnd : fds.Nodup)
    (hfree : ∀ fd ∈ fds, s.ofile np fd = none) : ∃ t, dupFiles p np fds s = .ok t ∧
      SameOthers np s t ∧ t.tab.Accounts (Slots.refs t.ofile) 0 := by
  induction fds generalizing s with
  | nil => exact ⟨s, rfl, ⟨rfl, fun _ _ => rfl⟩, hacc⟩
  | cons fd fds ih =>
    obtain ⟨hfd, hnd⟩ := List.nodup_cons.mp hnd
    have hrest : ∀ fd ∈ fds, s.ofile np fd = none := fun x hx => hfree x (List.mem_cons_of_mem fd hx)
    rw [dupFiles]
    cases hf : s.ofile p fd with
    | none => exact ih hacc hnd hrest
    | some f =>
      obtain ⟨tab, ht, hacc⟩ := hacc.filedup (Slots.mem_refs hf) (count_lt _ f)
      have hslot := hfree fd List.mem_cons_self
      rw [← Slots.refs_fill hslot] at hacc
      obtain ⟨t, hrun, hsame, hok⟩ := ih (s := setFd { s with tab := tab } np fd (some f)) hacc hnd
        fun x hx => by
          have hxf : x ≠ fd := by
            rintro rfl
            exact hfd hx
          exact (Slots.set_of_ne (.inr hxf)).trans (hrest x hx)
      refine ⟨t, bind_eq_ok ht hrun, ⟨hsame.1, fun q hq => ?_⟩, hok⟩
      exact (hsame.2 q hq).trans (Function.update_of_ne hq _ _)

theorem fork_ok (h : s.Ok) (memory : Bool) :
    ∃ r t, s.fork p memory = .ok (r, t) ∧ t.Ok := by
  unfold fork
  cases hnp : (List.finRange NPROC).find? fun i => s.state i = .UNUSED with
  | none => exact ⟨-1, s, rfl, h⟩
  | some np =>
    have hunused : s.state np = .UNUSED := by simpa using List.find?_some hnp
    cases memory with
    | false => exact ⟨-1, s, rfl, h⟩
    | true =>
      obtain ⟨t, hrun, hsame, hacc⟩ := dupFiles_ok (p := p) h.tab (List.nodup_finRange NOFILE)
        fun fd _ => h.dead np (.inl hunused) fd
      refine ⟨_, _, bind_eq_ok hrun rfl, hacc, fun q hq fd => ?_⟩
      have hqn : q ≠ np := by
        rintro rfl
        simp only [Function.update_self, reduceCtorEq, or_self] at hq
      simp only [Function.update_of_ne hqn] at hq
      rw [hsame.1] at hq
      show t.ofile q fd = none
      rw [hsame.2 q hqn]
      exact h.dead q hq fd

/-- The loop of `exit` empties the slots it visits. -/
theorem closeFiles_ok (hacc : s.tab.Accounts (Slots.refs s.ofile) 0) :
    ∃ t, closeFiles p fds s = .ok t ∧ SameOthers p s t ∧ t.tab.Accounts (Slots.refs t.ofile) 0 ∧
      ∀ fd, fd ∈ fds ∨ s.ofile p fd = none → t.ofile p fd = none := by
  induction fds generalizing s with
  | nil =>
    refine ⟨s, rfl, ⟨rfl, fun _ _ => rfl⟩, hacc, fun fd hfd => ?_⟩
    exact hfd.resolve_left List.not_mem_nil
  | cons fd fds ih =>
    rw [closeFiles]
    cases hf : s.ofile p fd with
    | none =>
      obtain ⟨t, hrun, hsame, hok, hnone⟩ := ih hacc
      refine ⟨t, hrun, hsame, hok, fun x hx => hnone x ?_⟩
      rcases hx with hx | hx
      · rcases List.mem_cons.mp hx with rfl | hx
        · exact .inr hf
        · exact .inl hx
      · exact .inr hx
    | some f =>
      rw [Slots.refs_clear hf] at hacc
      obtain ⟨tab, ht, hacc⟩ := hacc.fileclose
      obtain ⟨t, hrun, hsame, hok, hnone⟩ := ih (s := setFd { s with tab := tab } p fd none) hacc
      refine ⟨t, bind_eq_ok ht hrun, ⟨hsame.1, fun q hq => ?_⟩, hok, fun x hx => hnone x ?_⟩
      · exact (hsame.2 q hq).trans (Function.update_of_ne hq _ _)
      · by_cases hxf : x = fd
        · subst hxf
          exact .inr Slots.set_self
        · rcases hx with hx | hx
          · exact .inl ((List.mem_cons.mp hx).resolve_left hxf)
          · exact .inr ((Slots.set_of_ne (.inr hxf)).trans hx)

theorem exit_ok (h : s.Ok) : ∃ t, s.exit p = .ok t ∧ t.Ok := by
  obtain ⟨t, hrun, hsame, hacc, hnone⟩ :=
    closeFiles_ok (p := p) h.tab
  refine ⟨_, bind_eq_ok hrun rfl, hacc, fun q hq fd => ?_⟩
  by_cases hqp : q = p
  · subst hqp
    exact hnone fd (.inl (List.mem_finRange fd))
  · simp only [Function.update_of_ne hqp] at hq
    rw [hsame.1] at hq
    show t.ofile q fd = none
    rw [hsame.2 q hqp]
    exact h.dead q hq fd

/-- A zombie's slot is free again. -/
theorem freeproc_ok (h : s.Ok) (hz : s.state p = .ZOMBIE) :
    Ok { s with state := Function.update s.state p .UNUSED } := by
  refine ⟨h.tab, fun q hq fd => ?_⟩
  by_cases hqp : q = p
  · exact h.dead q (.inr (hqp ▸ hz)) fd
  · simp only [Function.update_of_ne hqp] at hq
    exact h.dead q hq fd

theorem map_ok_of {x : Except Panic (ℤ × FileSys)} (h : ∃ r t, x = .ok (r, t) ∧ t.Ok) :
    ∃ t, x.map Prod.snd = .ok t ∧ t.Ok := by
  obtain ⟨r, t, rfl, ht⟩ := h
  exact ⟨t, rfl, ht⟩

/-- **Step lemma**: no call panics, and every call leaves exact references. -/
theorem step_ok {e : FileOp} {r : Except Panic FileSys} (h : s.Ok) (he : fileStep s e = some r) :
    ∃ t, r = .ok t ∧ t.Ok := by
  cases e with
  | sys_open p target omode =>
    simp only [fileStep, Option.ite_none_right_eq_some, Option.some.injEq] at he
    obtain ⟨hp, rfl⟩ := he
    exact map_ok_of (sys_open_ok h hp target omode)
  | sys_dup p n =>
    simp only [fileStep, Option.ite_none_right_eq_some, Option.some.injEq] at he
    obtain ⟨hp, rfl⟩ := he
    exact map_ok_of (sys_dup_ok h hp)
  | sys_pipe p page out =>
    simp only [fileStep, Option.ite_none_right_eq_some, Option.some.injEq] at he
    obtain ⟨hp, rfl⟩ := he
    exact map_ok_of (sys_pipe_ok h hp page out)
  | sys_close p n =>
    simp only [fileStep, Option.ite_none_right_eq_some, Option.some.injEq] at he
    obtain ⟨hp, rfl⟩ := he
    exact map_ok_of (sys_close_ok h hp)
  | fork p memory =>
    simp only [fileStep, Option.ite_none_right_eq_some, Option.some.injEq] at he
    obtain ⟨-, rfl⟩ := he
    exact map_ok_of (fork_ok h memory)
  | exit p =>
    simp only [fileStep, Option.ite_none_right_eq_some, Option.some.injEq] at he
    obtain ⟨-, rfl⟩ := he
    exact exit_ok h
  | freeproc p =>
    simp only [fileStep, Option.ite_none_right_eq_some, Option.some.injEq] at he
    obtain ⟨hz, rfl⟩ := he
    exact ⟨_, rfl, freeproc_ok h hz⟩

end FileSys

/-- **Open-file references are exact**: a file's count is the number of descriptor slots that refer to
it, and an entry without references is open on nothing; every end of a pipe is held by one file or has
been closed once, and the page is freed once, with the second end; the inode references that were got
and not put are those of the open files; no call panics. -/
theorem open_files_exact {P : FileSys → FileOp → Prop} {s : FileSys}
    (h : Runs.Steps fileStep P FileSys.userinit s) :
    (∀ f, (s.tab.file f).ref = ((Finset.univ : Finset (Fin NPROC × Fin NOFILE)).filter
      fun x => s.ofile x.1 x.2 = some f).card) ∧
    (∀ f, (s.tab.file f).ref = 0 → (s.tab.file f).type = .FD_NONE) ∧
    (∀ pi < s.tab.pipes, ∀ w,
      s.tab.closed pi w = 0 ∧ (∃! f, (s.tab.file f).obj = .pipeEnd pi w) ∨
      s.tab.closed pi w = 1 ∧ ∀ f, (s.tab.file f).obj ≠ .pipeEnd pi w) ∧
    (∀ pi < s.tab.pipes, s.tab.kfreed pi =
      if s.tab.closed pi false = 1 ∧ s.tab.closed pi true = 1 then 1 else 0) ∧
    (∀ ip, s.tab.got ip =
      s.tab.put ip + (Finset.univ.filter fun f => (s.tab.file f).obj = .inode ip).card) ∧
    ∀ e m, fileStep s e ≠ some (.error m) := by
  have hok : s.Ok := h.invariant (I := FileSys.Ok) .init fun s e t hs _ he => by
    obtain ⟨t', ht, hok⟩ := FileSys.step_ok hs he
    cases ht
    exact hok
  have hobjs := hok.tab.objects
  refine ⟨fun f => ?_, fun f hf => ?_, fun pi hpi w => ?_, fun pi hpi => (hobjs.pipe pi hpi).freed,
    fun ip => ?_, fun e m he => ?_⟩
  · rw [hok.tab.ref f, Slots.count_refs]
  · rw [hok.tab.ref f, Nat.cast_eq_zero, Multiset.count_eq_zero] at hf
    exact File.obj_eq_none.mp (hok.tab.idle f hf)
  · rcases hobjs.ends pi hpi w with ⟨hc, f, hf⟩ | hc
    · exact .inl ⟨hc, f, hf, fun g hg => hobjs.unique g f pi w hg hf⟩
    · exact .inr hc
  · rw [hobjs.inodes ip, Multiset.count_zero, add_zero]
  · obtain ⟨t, ht, -⟩ := FileSys.step_ok hok he
    cases ht

/-- A pipe is shared with a child, which closes the read end; later the parent exits. -/
theorem open_files_exact_run : ∃ s, Runs.Steps fileStep (fun _ _ => True) FileSys.userinit s ∧
    (s.tab.pipes = 1 ∧ (s.tab.file 0).ref = 0 ∧ (s.tab.file 1).ref = 1) ∧
    ∀ e m, fileStep s e ≠ some (.error m) := by
  obtain ⟨s, hs, h⟩ := Runs.Steps.of_any
    (Q := fun s => s.tab.pipes = 1 ∧ (s.tab.file 0).ref = 0 ∧ (s.tab.file 1).ref = 1)
    [.sys_pipe 0 true true, .fork 0 true, .sys_close 1 0, .exit 0]
    (by decide +kernel : (Runs.exec fileStep (fun _ _ => True) FileSys.userinit _).any _ = true)
  exact ⟨s, hs, h, (open_files_exact hs).2.2.2.2.2⟩

end Xv6
