import Xv6.Fs.Contents
import Xv6.Kernel.FileIo
import Xv6.Lib.Runs
import Xv6.Lib.Spans

/-!
# SharedOffset — writers that share an open file do not overwrite each other

The transfers of all calls are intervals one behind the other, from the first offset on; what a round of
`filewrite` has written stays there, and the rounds of a call make up its bytes.
-/

namespace Xv6

open Layout

namespace SharedFile

variable {sb : superblock} {f f' : SharedFile} {fs : Fs} {ip : inode} {off0 id id' p : ℕ} {w : Bool}
  {data : ℕ → UInt8} {r : ℤ} {c : WriteCall} {t : Transfer}

/-- The steps of a run. -/
def Allowed (sb : superblock) (f : SharedFile) : Op → Prop
  | .others fs _ _ => Fs.Undisturbed sb f.ip f.fs fs
  | _ => True

/-- A file that nobody has used yet. -/
structure Fresh (sb : superblock) (f : SharedFile) : Prop where
  file : Fs.FileOk sb f.ip f.fs
  off : f.off < 2 ^ 32
  pc : ∀ p, f.pc p = none
  transfers : f.transfers = []
  returned : f.returned = []

def Transfer.span (t : Transfer) : ℕ × ℕ := (t.start, t.data.length)

/-- The file has the bytes of the transfer at its place. -/
def Kept (f : SharedFile) (t : Transfer) : Prop :=
  (List.range t.data.length).map (fun j => f.fs.bytes f.ip (t.start + j)) = t.data

/-- The bytes that a call has written, in order. -/
def moved (f : SharedFile) (id : ℕ) : List UInt8 :=
  ((f.transfers.filter fun t => t.write ∧ t.call = id).map Transfer.data).flatten

/-! ## Places -/

/-- Where the transfers are. -/
structure Placed (sb : superblock) (off0 : ℕ) (f : SharedFile) : Prop where
  file : Fs.FileOk sb f.ip f.fs
  off_lt : f.off < 2 ^ 32
  spans : Spans.Consecutive off0 (f.transfers.map Transfer.span) f.off
  fits : ∀ t ∈ f.transfers, t.start + t.data.length ≤ MAXFILE * BSIZE
  kept : ∀ t ∈ f.transfers, t.write = true → f.Kept t

theorem Placed.le_off (h : Placed sb off0 f) (ht : t ∈ f.transfers) :
    t.start + t.data.length ≤ f.off :=
  (h.spans.bounds _ (List.mem_map_of_mem (f := Transfer.span) ht)).2

/-- The bytes before the offset stay. -/
theorem Placed.change (h : Placed sb off0 f) (hf : Fs.FileOk sb ip fs)
    (hb : ∀ i < f.off, i < MAXFILE * BSIZE → fs.bytes ip i = f.fs.bytes f.ip i) :
    Placed sb off0 { f with ip := ip, fs := fs } where
  file := hf
  off_lt := h.off_lt
  spans := h.spans
  fits := h.fits
  kept := fun t ht hw => by
    have hle := h.le_off ht
    have hfit := h.fits t ht
    refine Eq.trans (List.map_congr_left fun j hj => ?_) (h.kept t ht hw)
    have hj := List.mem_range.mp hj
    exact hb _ (by omega) (by omega)

/-- A transfer at the offset. -/
theorem Placed.advance (h : Placed sb off0 f) (hle : 0 < r → f.off + r.toNat ≤ MAXFILE * BSIZE)
    (hb : w = true → ∀ j < r.toNat, f.fs.bytes f.ip (f.off + j) = data j) :
    Placed sb off0 (f.advance id w data r) := by
  unfold SharedFile.advance
  by_cases hr : 0 < r
  · have hle := hle hr
    have hmod : (f.off + r.toNat) % 2 ^ 32 = f.off + r.toNat := Nat.mod_eq_of_lt (by
      simp only [MAXFILE, NDIRECT, NINDIRECT, BSIZE] at hle
      omega)
    rw [if_pos hr, hmod]
    have hlen : ((List.range r.toNat).map data).length = r.toNat := by simp
    refine ⟨h.file, ?_, ?_, ?_, ?_⟩
    · show f.off + r.toNat < 2 ^ 32
      simp only [MAXFILE, NDIRECT, NINDIRECT, BSIZE] at hle
      omega
    · show Spans.Consecutive off0 ((f.transfers ++ [_]).map Transfer.span) (f.off + r.toNat)
      rw [List.map_append, List.map_singleton, Transfer.span, hlen]
      exact h.spans.snoc
    · intro t ht
      rcases List.mem_append.mp ht with ht | ht
      · exact h.fits t ht
      · obtain rfl := List.mem_singleton.mp ht
        rw [hlen]
        exact hle
    · intro t ht hw
      rcases List.mem_append.mp ht with ht | ht
      · exact h.kept t ht hw
      · obtain rfl := List.mem_singleton.mp ht
        show (List.range _).map _ = _
        rw [hlen]
        exact List.map_congr_left fun j hj => hb hw j (List.mem_range.mp hj)
  · rw [if_neg hr]
    exact h

theorem moved_advance : (f.advance id w data r).moved id' =
    if w = true ∧ id' = id then f.moved id' ++ (List.range r.toNat).map data else f.moved id' := by
  unfold SharedFile.advance
  by_cases hr : 0 < r
  · rw [if_pos hr]
    unfold moved
    rw [List.filter_append, List.map_append, List.flatten_append]
    by_cases hid : w = true ∧ id' = id
    · obtain ⟨rfl, rfl⟩ := hid
      simp
    · have hne : ¬ (w = true ∧ id = id') := fun h => hid ⟨h.1, h.2.symm⟩
      rw [if_neg hid]
      simp [hne]
  · rw [if_neg hr, Int.toNat_of_nonpos (by omega)]
    simp

/-! ## Transfers -/

/-- `readi` with any arguments. -/
theorem readi_keeps {writable : ℕ → Bool} {dst : ByteStore} {off n : ℕ} (hsb : sb.Ok)
    (hf : Fs.FileOk sb ip fs) (hoff : off < 2 ^ 32) (hn : n < 2 ^ 32) :
    ∃ (r : ℤ) (dst' : ByteStore) (ip' : inode) (fs' : Fs),
      fs.readi sb writable dst off n ip = .ok (r, dst', ip', fs') ∧ Fs.FileOk sb ip' fs' ∧
      SameBytes fs.blocks fs'.blocks ip.d ip'.d ∧ (0 < r → off + r.toNat ≤ MAXFILE * BSIZE) := by
  by_cases hin : off ≤ ip.d.size.toNat ∧ off + n < 2 ^ 32
  · obtain ⟨r, w, ip', fs', heq, hw, hadv, hc, -, hr⟩ := Fs.readi_spec hsb hf hin.1 hin.2
    refine ⟨r, _, ip', fs', heq, hadv.file, hc, fun hpos => ?_⟩
    have hsize := hf.size
    rcases hr with ⟨rfl, -⟩ | ⟨rfl, -⟩
    · rw [Int.toNat_natCast]
      omega
    · omega
  · exact ⟨0, dst, ip, fs, Fs.readi_out hn hoff (by omega), hf, fun _ _ => rfl, fun h => by omega⟩

/-- `writei` of accessible bytes with any arguments. -/
theorem writei_keeps {src : ℕ → UInt8} {off n : ℕ} (hsb : sb.Ok) (hf : Fs.FileOk sb ip fs)
    (hoff : off < 2 ^ 32) (hn : n < 2 ^ 32) :
    ∃ (r : ℤ) (ip' : inode) (fs' : Fs),
      fs.writei sb (fun j => some (src j)) off n ip = .ok (r, ip', fs') ∧ Fs.FileOk sb ip' fs' ∧ r ≤ n ∧
      (0 < r → off + r.toNat ≤ MAXFILE * BSIZE) ∧
      (∀ j < r.toNat, fs'.bytes ip' (off + j) = src j) ∧
      ∀ i < off, i < MAXFILE * BSIZE → fs'.bytes ip' i = fs.bytes ip i := by
  by_cases hin : off ≤ ip.d.size.toNat ∧ off + n ≤ MAXFILE * BSIZE
  · obtain ⟨tot, k, ip', fs', heq, hle, hw, -, hstop, -⟩ :=
      Fs.writei_spec (fun j => some (src j)) hsb hf hin.1 hin.2
    have hk : k = 0 := by
      by_cases hlt : tot < n
      · rcases hstop hlt with h | h
        · exact h.1
        · cases h.none
      · omega
    subst hk
    refine ⟨tot, ip', fs', heq, hw.adv.file, by omega, fun _ => ?_, fun j hj => ?_, fun i hi hmax => ?_⟩
    · rw [Int.toNat_natCast]
      omega
    · rw [Int.toNat_natCast] at hj
      rw [hw.bytes _ (by omega), if_pos (by omega), Nat.add_sub_cancel_left]
      rfl
    · rw [hw.bytes i hmax, if_neg (by omega)]
  · exact ⟨-1, ip, fs, Fs.writei_out hn hoff (by omega), hf, by omega, fun h => by omega,
      fun j hj => absurd hj (Nat.not_lt_zero j), fun _ _ _ => rfl⟩

/-! ## Calls -/

/-- What the calls have written. -/
structure Calls (f : SharedFile) : Prop where
  old : ∀ id, f.calls ≤ id → f.moved id = []
  active : ∀ p c, f.pc p = some c →
    c.id < f.calls ∧ ((c.i : ℤ) ≤ c.n ∨ c.i = 0) ∧ f.moved c.id = (List.range c.i).map c.src
  own : ∀ p q c c', f.pc p = some c → f.pc q = some c' → c.id = c'.id → p = q
  done : ∀ c r, (c, r) ∈ f.returned → c.id < f.calls ∧ (∀ p c', f.pc p = some c' → c'.id ≠ c.id) ∧
    (r = c.n → f.moved c.id = (List.range c.n.toNat).map c.src)

theorem pc_none {q : ℕ} {c' : WriteCall} :
    Function.update f.pc p none q = some c' ↔ q ≠ p ∧ f.pc q = some c' := by
  by_cases hqp : q = p
  · rw [hqp, Function.update_self]
    exact ⟨fun h => absurd h (Option.some_ne_none _).symm, fun h => absurd rfl h.1⟩
  · rw [Function.update_of_ne hqp]
    exact ⟨fun h => ⟨hqp, h⟩, fun h => h.2⟩

theorem pc_some {q : ℕ} {c' : WriteCall} :
    Function.update f.pc p (some c) q = some c' ↔ q = p ∧ c' = c ∨ q ≠ p ∧ f.pc q = some c' := by
  by_cases hqp : q = p
  · rw [hqp, Function.update_self]
    constructor
    · rintro ⟨⟩
      exact Or.inl ⟨rfl, rfl⟩
    · rintro (⟨-, rfl⟩ | ⟨h, -⟩)
      · rfl
      · exact absurd rfl h
  · rw [Function.update_of_ne hqp]
    exact ⟨fun h => Or.inr ⟨hqp, h⟩, fun h => h.elim (fun h => absurd h.1 hqp) fun h => h.2⟩

/-- The call `c` that process `p` is in returns. -/
theorem Calls.ret (h : f.Calls) (hid : c.id < f.calls)
    (hown : ∀ q c', f.pc q = some c' → c'.id = c.id → q = p)
    (hdone : ∀ c₁ r₁, (c₁, r₁) ∈ f.returned → c.id ≠ c₁.id) (hcalls : f'.calls = f.calls)
    (hpc : f'.pc = Function.update f.pc p none) (hret : f'.returned = (c, r) :: f.returned)
    (hmoved : ∀ id, id ≠ c.id → f'.moved id = f.moved id)
    (hr : r = c.n → f'.moved c.id = (List.range c.n.toNat).map c.src) : f'.Calls where
  old := fun id hge => by
    rw [hcalls] at hge
    rw [hmoved id (by omega), h.old id hge]
  active := fun q c' hq => by
    rw [hpc] at hq
    obtain ⟨hqp, hq⟩ := pc_none.mp hq
    rw [hcalls, hmoved c'.id fun heq => hqp (hown q c' hq heq)]
    exact h.active q c' hq
  own := fun q q' c₁ c₂ hq hq' => by
    rw [hpc] at hq hq'
    exact h.own q q' c₁ c₂ (pc_none.mp hq).2 (pc_none.mp hq').2
  done := fun c₁ r₁ hmem => by
    rw [hret] at hmem
    rw [hcalls, hpc]
    rcases List.mem_cons.mp hmem with heq | hmem
    · obtain ⟨rfl, rfl⟩ := Prod.mk.inj heq
      exact ⟨hid, fun q c' hq hc' => (pc_none.mp hq).1 (hown q c' (pc_none.mp hq).2 hc'), hr⟩
    · obtain ⟨h1, h2, h3⟩ := h.done c₁ r₁ hmem
      refine ⟨h1, fun q c' hq => h2 q c' (pc_none.mp hq).2, fun hn => ?_⟩
      rw [hmoved _ (Ne.symm (hdone c₁ r₁ hmem)), h3 hn]

/-- The call that process `p` is in has written `k` bytes more. -/
theorem Calls.round {k : ℕ} (h : f.Calls) (hc : f.pc p = some c) (hk : ((c.i + k : ℕ) : ℤ) ≤ c.n)
    (hcalls : f'.calls = f.calls) (hret : f'.returned = f.returned)
    (hpc : f'.pc = Function.update f.pc p (some { c with i := c.i + k }))
    (hmoved : ∀ id, f'.moved id = if id = c.id then
      f.moved id ++ (List.range k).map (fun j => c.src (c.i + j)) else f.moved id) : f'.Calls where
  old := fun id hid => by
    have hlt := (h.active p c hc).1
    rw [hcalls] at hid
    rw [hmoved, if_neg (by omega), h.old id hid]
  active := fun q c' hq => by
    rw [hpc] at hq
    rw [hcalls]
    rcases pc_some.mp hq with ⟨-, rfl⟩ | ⟨hqp, hq⟩
    · obtain ⟨h1, -, h3⟩ := h.active p c hc
      refine ⟨h1, Or.inl hk, ?_⟩
      rw [hmoved, if_pos rfl, h3, List.range_add, List.map_append, List.map_map]
      rfl
    · obtain ⟨h1, h2, h3⟩ := h.active q c' hq
      have hne : c'.id ≠ c.id := fun heq => hqp (h.own q p c' c hq hc heq)
      exact ⟨h1, h2, by rw [hmoved, if_neg hne, h3]⟩
  own := fun q q' c₁ c₂ hq hq' heq => by
    rw [hpc] at hq hq'
    rcases pc_some.mp hq with ⟨hqp, rfl⟩ | ⟨hqp, hq₁⟩ <;>
      rcases pc_some.mp hq' with ⟨hqp', rfl⟩ | ⟨hqp', hq₂⟩
    · exact hqp.trans hqp'.symm
    · exact hqp.trans (h.own p q' c c₂ hc hq₂ heq)
    · exact (h.own q p c₁ c hq₁ hc heq).trans hqp'.symm
    · exact h.own q q' c₁ c₂ hq₁ hq₂ heq
  done := fun c₁ r₁ hmem => by
    rw [hret] at hmem
    obtain ⟨h1, h2, h3⟩ := h.done c₁ r₁ hmem
    have hne := h2 p c hc
    refine ⟨by rwa [hcalls], fun q c' hq => ?_, fun hr => ?_⟩
    · rw [hpc] at hq
      rcases pc_some.mp hq with ⟨-, rfl⟩ | ⟨-, hq⟩
      · exact hne
      · exact h2 q c' hq
    · rw [hmoved, if_neg (Ne.symm hne), h3 hr]

theorem Calls.more (h : f.Calls) : ({ f with calls := f.calls + 1 } : SharedFile).Calls where
  old := fun id hid => h.old id (Nat.le_of_succ_le hid)
  active := fun q c hq => by
    obtain ⟨h1, h2, h3⟩ := h.active q c hq
    exact ⟨Nat.lt_succ_of_lt h1, h2, h3⟩
  own := h.own
  done := fun c r hmem => by
    obtain ⟨h1, h2, h3⟩ := h.done c r hmem
    exact ⟨Nat.lt_succ_of_lt h1, h2, h3⟩

/-- A new call. -/
theorem Calls.filewrite {src : ℕ → UInt8} {n : ℤ} (h : f.Calls) : (f.filewrite p src n).Calls := by
  have hnew : f.moved f.calls = [] := h.old f.calls le_rfl
  unfold SharedFile.filewrite
  dsimp only
  split
  · refine h.more.ret (Nat.lt_succ_self _) (fun q c' hq heq => ?_) (fun c₁ r₁ hmem => ?_) rfl rfl rfl
      (fun _ _ => rfl) fun hn => ?_
    · exact absurd heq (Nat.ne_of_lt (h.active q c' hq).1)
    · exact Nat.ne_of_gt (h.done c₁ r₁ hmem).1
    · have hn : n = -1 := hn.symm
      subst hn
      exact hnew
  · refine ⟨h.more.old, fun q c' hq => ?_, fun q q' c₁ c₂ hq hq' heq => ?_, fun c₁ r₁ hmem => ?_⟩
    · rcases pc_some.mp hq with ⟨-, rfl⟩ | ⟨-, hq⟩
      · exact ⟨Nat.lt_succ_self _, Or.inr rfl, hnew⟩
      · exact h.more.active q c' hq
    · rcases pc_some.mp hq with ⟨hqp, rfl⟩ | ⟨hqp, hq₁⟩ <;>
        rcases pc_some.mp hq' with ⟨hqp', rfl⟩ | ⟨hqp', hq₂⟩
      · exact hqp.trans hqp'.symm
      · exact absurd heq (Nat.ne_of_gt (h.active q' c₂ hq₂).1)
      · exact absurd heq (Nat.ne_of_lt (h.active q c₁ hq₁).1)
      · exact h.own q q' c₁ c₂ hq₁ hq₂ heq
    · obtain ⟨h1, h2, h3⟩ := h.more.done c₁ r₁ hmem
      refine ⟨h1, fun q c' hq => ?_, h3⟩
      rcases pc_some.mp hq with ⟨-, rfl⟩ | ⟨-, hq⟩
      · exact Nat.ne_of_gt (h.done c₁ r₁ hmem).1
      · exact h2 q c' hq

/-! ## Runs -/

structure Inv (sb : superblock) (off0 : ℕ) (f : SharedFile) : Prop where
  placed : Placed sb off0 f
  calls : f.Calls

theorem Fresh.inv (h : Fresh sb f) : Inv sb f.off f where
  placed :=
    { file := h.file
      off_lt := h.off
      spans := by rw [h.transfers]; exact rfl
      fits := by rw [h.transfers]; exact fun t ht => absurd ht List.not_mem_nil
      kept := by rw [h.transfers]; exact fun t ht => absurd ht List.not_mem_nil }
  calls :=
    { old := fun id _ => by rw [moved, h.transfers]; rfl
      active := fun p c hc => by rw [h.pc p] at hc; cases hc
      own := fun p _ c _ hc => by rw [h.pc p] at hc; cases hc
      done := by rw [h.returned]; exact fun c r hc => absurd hc List.not_mem_nil }

theorem Calls.congr (h : f.Calls) (hpc : f'.pc = f.pc) (hcalls : f'.calls = f.calls)
    (hret : f'.returned = f.returned) (hmoved : ∀ id, f'.moved id = f.moved id) : f'.Calls where
  old := fun id hid => by rw [hmoved]; exact h.old id (hcalls ▸ hid)
  active := fun p c hc => by rw [hcalls, hmoved]; exact h.active p c (hpc ▸ hc)
  own := by rw [hpc]; exact h.own
  done := fun c r hmem => by
    rw [hcalls, hpc, hmoved]
    exact h.done c r (hret ▸ hmem)

theorem advance_rest : (f.advance id w data r).pc = f.pc ∧ (f.advance id w data r).calls = f.calls ∧
    (f.advance id w data r).returned = f.returned ∧ (f.advance id w data r).fs = f.fs ∧
    (f.advance id w data r).ip = f.ip := by
  unfold SharedFile.advance
  split <;> exact ⟨rfl, rfl, rfl, rfl, rfl⟩

theorem Inv.fileread {dst : ByteStore} {n : ℤ} (hsb : sb.Ok) (hi : Inv sb off0 f) :
    ∃ f', f.fileread sb dst n = .ok f' ∧ Inv sb off0 f' := by
  rw [SharedFile.fileread]
  split
  · exact ⟨f, rfl, hi⟩
  have hn : (n % 2 ^ 32).toNat < 2 ^ 32 := by
    have h1 := Int.emod_nonneg n (by decide : (2 ^ 32 : ℤ) ≠ 0)
    have h2 := Int.emod_lt_of_pos n (by decide : (0 : ℤ) < 2 ^ 32)
    omega
  obtain ⟨r, dst', ip', fs', heq, hf, hc, hfit⟩ := readi_keeps
    hsb hi.placed.file hi.placed.off_lt hn
  rw [heq, ok_bind]
  refine ⟨_, rfl, ?_, ?_⟩
  · have h1 := hi.placed.change hf fun i _ hmax => hc i hmax
    have h2 := @Placed.advance _ _ _ f.calls false dst' _ h1 hfit (fun h => absurd h Bool.false_ne_true)
    exact ⟨h2.file, h2.off_lt, h2.spans, h2.fits, h2.kept⟩
  · obtain ⟨h1, h2, h3, -, -⟩ :=
      @advance_rest { f with ip := ip', fs := fs' } f.calls false dst' r
    have hcalls := Calls.congr hi.calls h1 h2 h3 fun id => by
      rw [moved_advance, if_neg (fun h => absurd h.1 Bool.false_ne_true)]
      rfl
    exact Calls.congr hcalls.more rfl (by rw [h2]) rfl fun _ => rfl

/-- A round of `filewrite`, or its return. -/
theorem Inv.writeRound (hsb : sb.Ok) (hi : Inv sb off0 f) (hc : f.pc p = some c) :
    ∃ f', f.writeRound sb p c = .ok f' ∧ Inv sb off0 f' := by
  obtain ⟨hid, hle, hmoved⟩ := hi.calls.active p c hc
  have hown : ∀ q c', f.pc q = some c' → c'.id = c.id → q = p := fun q c' hq heq =>
    hi.calls.own q p c' c hq hc heq
  have hdone : ∀ c₁ r₁, (c₁, r₁) ∈ f.returned → c.id ≠ c₁.id := fun c₁ r₁ hmem =>
    (hi.calls.done c₁ r₁ hmem).2.1 p c hc
  rw [SharedFile.writeRound]
  by_cases hlt : (c.i : ℤ) < c.n
  swap
  · rw [if_neg hlt]
    refine ⟨_, rfl, ⟨hi.placed.file, hi.placed.off_lt, hi.placed.spans, hi.placed.fits, hi.placed.kept⟩,
      hi.calls.ret hid hown hdone rfl rfl rfl (fun _ _ => rfl) fun hr => ?_⟩
    show f.moved c.id = _
    rw [hmoved]
    split at hr
    · congr 2
      omega
    · -- a negative size: the call has not written anything
      congr 2
      omega
  rw [if_pos hlt]
  dsimp only
  generalize hn1 : min (c.n - c.i) (maxWrite : ℤ) = n1
  have hn1pos : 0 < n1 ∧ n1 ≤ maxWrite ∧ n1 ≤ c.n - c.i := by
    have hpos : (0 : ℤ) < maxWrite := by decide
    omega
  have hn1lt : n1.toNat < 2 ^ 32 := by
    have hmax : maxWrite = 3072 := rfl
    omega
  obtain ⟨r, ip', fs', heq, hf, hr, hfit, hdata, hkeep⟩ :=
    writei_keeps hsb hi.placed.file hi.placed.off_lt hn1lt
  rw [heq, ok_bind]
  dsimp only
  generalize hf1 : ({ f with ip := ip', fs := fs' } : SharedFile) = f1
  have hp1 : Placed sb off0 f1 := hf1 ▸ hi.placed.change hf hkeep
  have hbytes : ∀ j < r.toNat, f1.fs.bytes f1.ip (f1.off + j) = c.src (c.i + j) := by
    rw [← hf1]
    exact hdata
  have hpc1 : f1.pc = f.pc ∧ f1.calls = f.calls ∧ f1.returned = f.returned ∧ f1.off = f.off ∧
      ∀ id, f1.moved id = f.moved id := by
    rw [← hf1]
    exact ⟨rfl, rfl, rfl, rfl, fun _ => rfl⟩
  obtain ⟨hpc1, hcalls1, hret1, hoff1, hmoved1⟩ := hpc1
  generalize hf2 : f1.advance c.id true (fun j => c.src (c.i + j)) r = f2
  have hp2 : Placed sb off0 f2 := hf2 ▸ hp1.advance (by rwa [hoff1]) fun _ => hbytes
  obtain ⟨hpc2, hcalls2, hret2, -, -⟩ := advance_rest (f := f1) (w := true)
    (r := r)
  rw [hf2] at hpc2 hcalls2 hret2
  have hmoved2 : ∀ id, f2.moved id = if id = c.id then
      f.moved id ++ (List.range r.toNat).map (fun j => c.src (c.i + j)) else f.moved id := by
    intro id
    rw [← hf2, moved_advance, hmoved1]
    simp
  by_cases hrn : r = n1
  · rw [if_neg (by rwa [not_not])]
    refine ⟨_, rfl, ⟨hp2.file, hp2.off_lt, hp2.spans, hp2.fits, hp2.kept⟩, ?_⟩
    refine hi.calls.round (k := r.toNat) hc (by omega) (hcalls2.trans hcalls1) (hret2.trans hret1) ?_ hmoved2
    show Function.update f2.pc p _ = _
    rw [hpc2, hpc1]
  · rw [if_pos hrn, if_neg (by omega)]
    refine ⟨_, rfl, ⟨hp2.file, hp2.off_lt, hp2.spans, hp2.fits, hp2.kept⟩, ?_⟩
    refine hi.calls.ret (r := -1) hid hown hdone (hcalls2.trans hcalls1) ?_ ?_ (fun id hne => ?_)
      fun hr => ?_
    · show Function.update f2.pc p _ = _
      rw [hpc2, hpc1]
    · show (c, -1) :: f2.returned = _
      rw [hret2, hret1]
    · exact (hmoved2 id).trans (if_neg hne)
    · omega

theorem Inv.step {o : Op} (hsb : sb.Ok) (hi : Inv sb off0 f) (ho : Allowed sb f o) {x : Except Panic SharedFile}
    (h : step sb f o = some x) : ∃ f', x = .ok f' ∧ Inv sb off0 f' := by
  cases o with
  | fileread p dst n =>
    rw [SharedFile.step] at h
    split at h
    · injection h with h
      obtain ⟨f', heq, hi'⟩ := hi.fileread (n := n) hsb
      exact ⟨f', by rw [← h, heq], hi'⟩
    · cases h
  | filewrite p src n =>
    rw [SharedFile.step] at h
    split at h
    · injection h with h
      refine ⟨_, h.symm, ?_, hi.calls.filewrite⟩
      unfold SharedFile.filewrite
      dsimp only
      split <;> exact ⟨hi.placed.file, hi.placed.off_lt, hi.placed.spans, hi.placed.fits, hi.placed.kept⟩
    · cases h
  | run p =>
    rw [SharedFile.step] at h
    cases hc : f.pc p with
    | none => rw [hc] at h; cases h
    | some c =>
      rw [hc] at h
      injection h with h
      obtain ⟨f', heq, hi'⟩ := hi.writeRound hsb hc
      exact ⟨f', h.symm.trans heq, hi'⟩
  | read writable dst off n =>
    rw [SharedFile.step] at h
    injection h with h
    obtain ⟨r, dst', ip', fs', heq, hf, hc, -⟩ := readi_keeps hsb
      hi.placed.file (UInt32.toNat_lt off) (UInt32.toNat_lt n)
    rw [heq] at h
    exact ⟨_, h.symm, hi.placed.change hf fun i _ hmax => hc i hmax,
      hi.calls.congr rfl rfl rfl fun _ => rfl⟩
  | others fs ref nlink =>
    rw [SharedFile.step] at h
    injection h with h
    obtain ⟨hf, hc, -⟩ := ho.file hi.placed.file
    have hf' : Fs.FileOk sb { f.ip with ref := ref, d := { f.ip.d with nlink := nlink } } fs :=
      ⟨⟨hf.owns.inj, hf.owns.mem⟩, hf.reserved, hf.size, hf.inum⟩
    exact ⟨_, h.symm, hi.placed.change hf' fun i _ hmax => hc i hmax,
      hi.calls.congr rfl rfl rfl fun _ => rfl⟩

/-- **Writers that share an open file do not overwrite each other.** -/
theorem writers_do_not_overwrite (hsb : sb.Ok) (h0 : Fresh sb f)
    (hrun : Runs.Steps (step sb) (Allowed sb) f f') :
    Spans.Consecutive f.off (f'.transfers.map Transfer.span) f'.off ∧
      (f'.transfers.Pairwise fun t t' => t.start + t.data.length ≤ t'.start) ∧
      (∀ t ∈ f'.transfers, t.write = true → f'.Kept t) ∧
      (∀ c r, (c, r) ∈ f'.returned → r = c.n →
        f'.moved c.id = (List.range c.n.toNat).map c.src) ∧
      ∀ o e, Allowed sb f' o → step sb f' o ≠ some (.error e) := by
  have hi : Inv sb f.off f' := hrun.invariant h0.inv fun g o g' hg ho hstep => by
    obtain ⟨f₁, heq, hg'⟩ := hg.step hsb ho hstep
    injection heq with heq
    exact heq ▸ hg'
  refine ⟨hi.placed.spans, List.pairwise_map.mp hi.placed.spans.pairwise, hi.placed.kept,
    fun c r hmem => (hi.calls.done c r hmem).2.2, fun o e ho hstep => ?_⟩
  obtain ⟨f₁, heq, -⟩ := hi.step hsb ho hstep
  cases heq

/-- A step of one of the processes that share the file. -/
def Op.own : Op → Bool
  | .others _ _ _ => false
  | _ => true

theorem Allowed.of_own {o : Op} (h : o.own = true) : Allowed sb f o := by
  cases o with
  | others => cases h
  | _ => trivial

def emptyFile : SharedFile :=
  { readable := true, writable := true, off := 0, ip := Fs.emptyInode 2 2, fs := Fs.empty,
    pc := fun _ => none, calls := 0, transfers := [], returned := [] }

/-- Two processes write three and two bytes. -/
theorem writers_do_not_overwrite_run : ∃ f, Runs.Steps (step mkfsSb) (Allowed mkfsSb) emptyFile f ∧
    (f.off = 5 ∧ f.returned.map Prod.snd = [3, 2] ∧ f.transfers.map Transfer.data = [[8, 8], [7, 7, 7]]) ∧
    Spans.Consecutive 0 (f.transfers.map Transfer.span) f.off := by
  obtain ⟨f, hf, hq⟩ := Runs.Steps.of_any (P := fun (_ : SharedFile) (o : Op) => o.own = true)
    (Q := fun f : SharedFile => f.off = 5 ∧ f.returned.map Prod.snd = [3, 2] ∧
      f.transfers.map Transfer.data = [[8, 8], [7, 7, 7]])
    ([.filewrite 0 (fun _ => 7) 3, .filewrite 1 (fun _ => 8) 2, .run 1, .run 0, .run 1, .run 0])
    (by decide +kernel : (Runs.exec (step mkfsSb) (fun _ o => o.own = true)
      emptyFile _).any _ = true)
  have hrun : Runs.Steps (step mkfsSb) (Allowed mkfsSb) emptyFile f :=
    hf.mono fun _ _ ho => Allowed.of_own ho
  have h0 : Fresh mkfsSb emptyFile :=
    ⟨Fs.emptyInode_ok (by decide), by decide, fun _ => rfl, rfl, rfl⟩
  exact ⟨f, hrun, hq, (writers_do_not_overwrite Fs.mkfsSb_ok h0 hrun).1⟩

end SharedFile

end Xv6
