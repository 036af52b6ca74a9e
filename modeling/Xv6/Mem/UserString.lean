import Xv6.Fs.PartialWrite
import Xv6.Mem.PageTable

/-!
# UserString — strings in user memory

`copyinstr` reads page by page; `scanString` is the same scan byte by byte, over bytes that may be
unreadable.
-/

namespace Xv6

/-- The bytes of `src` up to the first NUL, at most `n`, and whether there was a NUL.  A byte that cannot
be read ends the string as well. -/
def scanString (src : ℕ → Option UInt8) : ℕ → List UInt8 × Bool
  | 0 => ([], false)
  | n + 1 =>
    match src 0 with
    | none => ([], false)
    | some b =>
      if b = 0 then ([], true)
      else
        let (rest, got_null) := scanString (fun i => src (i + 1)) n
        (b :: rest, got_null)

section

variable {src : ℕ → Option UInt8} {f : ℕ → UInt8} {n m k i : ℕ}

theorem scanString_none (h : src 0 = none) : scanString src n = ([], false) := by
  cases n with
  | zero => rfl
  | succ n => rw [scanString, h]

/-- A scan over bytes that can be read, and on. -/
theorem scanString_add (h : ∀ i < n, src i = some (f i)) :
    scanString src (n + m) =
      if (takeString f n).2 then takeString f n
      else ((takeString f n).1 ++ (scanString (fun i => src (n + i)) m).1,
        (scanString (fun i => src (n + i)) m).2) := by
  induction n generalizing src f with
  | zero => simp [takeString]
  | succ n ih =>
    have hrest := @ih (fun i => src (i + 1)) (fun i => f (i + 1)) fun i hi => h _ (by omega)
    have hshift : (fun i => src (n + i + 1)) = fun i => src (n + 1 + i) := by
      funext i
      rw [Nat.add_right_comm]
    rw [show n + 1 + m = n + m + 1 by omega, scanString, h 0 (by omega)]
    dsimp only
    rw [takeString]
    by_cases h0 : f 0 = 0
    · rw [if_pos h0, if_pos h0, if_pos rfl]
    · rw [if_neg h0, if_neg h0, hrest, hshift]
      dsimp only
      by_cases hn : (takeString (fun i => f (i + 1)) n).2 = true
      · rw [if_pos hn, if_pos hn]
      · rw [if_neg hn, if_neg hn]
        rfl

/-- How a scan ends. -/
structure StringScan (src : ℕ → Option UInt8) (n : ℕ) (bytes : List UInt8) (got_null : Bool) : Prop where
  read : ∀ i < bytes.length, ∃ b, src i = some b ∧ b ≠ 0 ∧ bytes[i]? = some b
  nul : got_null = true → bytes.length < n ∧ src bytes.length = some 0
  stop : got_null = false → bytes.length = n ∨ bytes.length < n ∧ src bytes.length = none

theorem scanString_spec (src : ℕ → Option UInt8) (n : ℕ) :
    StringScan src n (scanString src n).1 (scanString src n).2 := by
  induction n generalizing src with
  | zero =>
    refine ⟨fun i hi => ?_, fun h => ?_, fun _ => Or.inl rfl⟩
    · simp [scanString] at hi
    · simp [scanString] at h
  | succ n ih =>
    rw [scanString]
    cases h0 : src 0 with
    | none =>
      refine ⟨fun i hi => ?_, fun h => ?_, fun _ => Or.inr ⟨Nat.succ_pos n, h0⟩⟩
      · simp at hi
      · simp at h
    | some b =>
      dsimp only
      by_cases hb : b = 0
      · rw [if_pos hb]
        subst hb
        refine ⟨fun i hi => ?_, fun _ => ⟨Nat.succ_pos n, h0⟩, fun h => ?_⟩
        · simp at hi
        · simp at h
      rw [if_neg hb]
      obtain ⟨hread, hnul, hstop⟩ := ih fun i => src (i + 1)
      refine ⟨fun i hi => ?_, fun h => ?_, fun h => ?_⟩
      · rcases i with _ | i
        · exact ⟨b, h0, hb, rfl⟩
        · rw [List.length_cons] at hi
          exact hread i (by omega)
      · obtain ⟨hlt, hs⟩ := hnul h
        exact ⟨by simpa using hlt, hs⟩
      · rcases hstop h with hlen | ⟨hlt, hs⟩
        · exact Or.inl (by simpa using hlen)
        · exact Or.inr ⟨by simpa using hlt, hs⟩

/-- The first NUL is at `k`, and the bytes up to it can be read. -/
def NulAt (src : ℕ → Option UInt8) (k : ℕ) : Prop :=
  src k = some 0 ∧ ∀ i < k, ∃ b, src i = some b ∧ b ≠ 0

theorem StringScan.length_le {bytes : List UInt8} {got_null : Bool} (h : StringScan src n bytes got_null) :
    bytes.length + got_null.toNat ≤ n := by
  cases got_null with
  | true => exact (h.nul rfl).1
  | false => exact (h.stop rfl).elim (fun h => h.le) fun h => h.1.le

/-- **A scan finds a NUL exactly if there is one**, and it has gone up to it. -/
theorem StringScan.nulAt_iff {bytes : List UInt8} {got_null : Bool} (h : StringScan src n bytes got_null)
    (hk : k < n) : NulAt src k ↔ got_null = true ∧ bytes.length = k := by
  constructor
  · rintro ⟨h0, hbefore⟩
    have hle : ¬ k < bytes.length := fun hlt => by
      obtain ⟨b, hb, hne, -⟩ := h.read k hlt
      rw [h0] at hb
      cases hb
      exact hne rfl
    cases got_null with
    | true =>
      refine ⟨rfl, ?_⟩
      by_contra hne
      obtain ⟨b, hb, hb0⟩ := hbefore bytes.length (by omega)
      rw [(h.nul rfl).2] at hb
      cases hb
      exact hb0 rfl
    | false =>
      exfalso
      rcases h.stop rfl with hn | ⟨-, hnone⟩
      · omega
      · by_cases hlen : bytes.length = k
        · rw [hlen, h0] at hnone
          cases hnone
        · obtain ⟨b, hb, -⟩ := hbefore bytes.length (by omega)
          rw [hnone] at hb
          cases hb
  · rintro ⟨hgot, rfl⟩
    refine ⟨(h.nul hgot).2, fun i hi => ?_⟩
    obtain ⟨b, hb, hne, -⟩ := h.read i hi
    exact ⟨b, hb, hne⟩

theorem StringScan.bytes_eq {bytes : List UInt8} {got_null : Bool} (h : StringScan src n bytes got_null) :
    bytes = (List.range bytes.length).map fun i => (src i).getD 0 := by
  refine List.ext_getElem? fun i => ?_
  by_cases hi : i < bytes.length
  · obtain ⟨b, hb, -, hget⟩ := h.read i hi
    rw [hget, List.getElem?_map, List.getElem?_range hi, Option.map_some, hb, Option.getD_some]
  · rw [List.getElem?_eq_none (by omega), List.getElem?_eq_none (by simpa using hi)]

end

variable {pagetable srcva max n i k rounds va : ℕ} {s : Phys}

/-! ## User pages -/

/-- The user address `va` is below `MAXVA` and mapped with `V` and `U` to a page, which is not the page
at the null pointer. -/
def UserMapped (pagetable va : ℕ) (s : Phys) : Prop :=
  va < MAXVA ∧ (pteOf pagetable va s).has PTE_V = true ∧ (pteOf pagetable va s).has PTE_U = true ∧
    PTE2PA (pteOf pagetable va s) ≠ 0

/-- The byte at the user address `va`. -/
def byteOf (pagetable va : ℕ) (s : Phys) : UInt8 :=
  s.mem (PTE2PA (pteOf pagetable va s) + va % PGSIZE)

/-- A string with `k` bytes before its NUL is at the user address `srcva`. -/
structure StringAt (pagetable srcva k : ℕ) (s : Phys) : Prop where
  mapped : ∀ i ≤ k, UserMapped pagetable (srcva + i) s
  nul : byteOf pagetable (srcva + k) s = 0
  ne : ∀ i < k, byteOf pagetable (srcva + i) s ≠ 0

instance : Decidable (UserMapped pagetable va s) := inferInstanceAs (Decidable (_ ∧ _))

theorem pteOf_down : pteOf pagetable (PGROUNDDOWN va) s = pteOf pagetable va s := by
  have hdiv : PGROUNDDOWN va / 4096 = va / 4096 := Nat.mul_div_cancel _ (by decide)
  unfold pteOf
  rw [walkLoop_false, walkLoop_false, hdiv]

theorem down_lt : PGROUNDDOWN va < MAXVA ↔ va < MAXVA := by
  simp only [PGROUNDDOWN, PGSIZE, MAXVA]
  omega

/-- `walk` is not called with an address for which it panics. -/
theorem walkaddrCall_eq : walkaddrCall pagetable va s = .ok (walkaddr pagetable va s) := by
  unfold walkaddrCall walkaddr
  by_cases hva : MAXVA ≤ va
  · rw [if_pos hva, if_pos hva]
  rw [if_neg hva, if_neg hva, walk, if_neg hva]
  have hs : (walkLoop va false 2 pagetable s).2 = s := by rw [walkLoop_false]
  generalize walkLoop va false 2 pagetable s = x at hs
  obtain ⟨_ | pte, t⟩ := x
  · rfl
  · obtain rfl : t = s := hs
    dsimp only
    split_ifs <;> rfl

theorem walkaddr_eq_pteOf : walkaddr pagetable va s =
    if va < MAXVA ∧ (pteOf pagetable va s).has PTE_V = true ∧ (pteOf pagetable va s).has PTE_U = true then
      PTE2PA (pteOf pagetable va s)
    else 0 := by
  unfold walkaddr pteOf
  by_cases hva : MAXVA ≤ va
  · rw [if_pos hva, if_neg fun h => absurd h.1 (not_lt.mpr hva)]
  rw [if_neg hva]
  cases (walkLoop va false 2 pagetable s).1 with
  | none => simp
  | some pte =>
    by_cases hV : (readPte s.mem pte).has PTE_V = true
    · by_cases hU : (readPte s.mem pte).has PTE_U = true
      · simp [hV, hU, not_le.mp hva]
      · simp [hV, hU]
    · simp [hV]

theorem walkaddr_ne_zero_iff (pagetable va : ℕ) (s : Phys) :
    walkaddr pagetable va s ≠ 0 ↔ UserMapped pagetable va s := by
  unfold UserMapped
  rw [walkaddr_eq_pteOf]
  split_ifs with h
  · exact ⟨fun h0 => ⟨h.1, h.2.1, h.2.2, h0⟩, fun h => h.2.2.2⟩
  · exact ⟨fun h0 => absurd rfl h0, fun h' => absurd ⟨h'.1, h'.2.1, h'.2.2.1⟩ h⟩

theorem userMapped_down : UserMapped pagetable (PGROUNDDOWN va) s ↔ UserMapped pagetable va s := by
  unfold UserMapped
  rw [pteOf_down, down_lt]

theorem userSrc_eq : userSrc pagetable srcva s i =
    if UserMapped pagetable (srcva + i) s then some (byteOf pagetable (srcva + i) s) else none := by
  have hiff := walkaddr_ne_zero_iff pagetable (PGROUNDDOWN (srcva + i)) s
  rw [userMapped_down] at hiff
  unfold userSrc
  dsimp only
  by_cases h : UserMapped pagetable (srcva + i) s
  · rw [if_neg (hiff.mpr h), if_pos h, walkaddr_eq_pteOf, pteOf_down,
      if_pos ⟨down_lt.mpr h.1, h.2.1, h.2.2.1⟩]
    rfl
  · rw [if_neg h, if_pos (not_not.mp fun hne => h (hiff.mp hne))]

theorem nulAt_iff : NulAt (userSrc pagetable srcva s) k ↔ StringAt pagetable srcva k s := by
  have hsome : ∀ {i b}, userSrc pagetable srcva s i = some b →
      UserMapped pagetable (srcva + i) s ∧ byteOf pagetable (srcva + i) s = b := by
    intro i b h
    rw [userSrc_eq] at h
    split_ifs at h with hm
    exact ⟨hm, Option.some.inj h⟩
  constructor
  · rintro ⟨h0, hbefore⟩
    refine ⟨fun i hi => ?_, (hsome h0).2, fun i hi => ?_⟩
    · rcases hi.eq_or_lt with rfl | hlt
      · exact (hsome h0).1
      · obtain ⟨b, hb, -⟩ := hbefore i hlt
        exact (hsome hb).1
    · obtain ⟨b, hb, hne⟩ := hbefore i hi
      rw [(hsome hb).2]
      exact hne
  · intro h
    have hread : ∀ i ≤ k, userSrc pagetable srcva s i = some (byteOf pagetable (srcva + i) s) :=
      fun i hi => by rw [userSrc_eq, if_pos (h.mapped i hi)]
    refine ⟨by rw [hread k le_rfl, h.nul], fun i hi => ⟨_, hread i hi.le, h.ne i hi⟩⟩

/-! ## `copyinstr` -/

/-- **The loop of `copyinstr`** is the scan byte by byte. -/
theorem copyinstrLoop_eq (pagetable : ℕ) (s : Phys) : ∀ rounds srcva max, max ≤ rounds →
    copyinstrLoop pagetable s rounds srcva max = scanString (userSrc pagetable srcva s) max := by
  intro rounds
  induction rounds with
  | zero =>
    intro srcva max hle
    obtain rfl : max = 0 := by omega
    rfl
  | succ rounds ih =>
    intro srcva max hle
    rw [copyinstrLoop]
    by_cases h0 : max = 0
    · rw [if_pos h0, h0]
      rfl
    rw [if_neg h0]
    dsimp only
    have hoff : srcva - PGROUNDDOWN srcva < PGSIZE := by
      simp only [PGROUNDDOWN, PGSIZE]
      omega
    by_cases hpa : walkaddr pagetable (PGROUNDDOWN srcva) s = 0
    · rw [if_pos hpa, scanString_none (by rw [userSrc_page (by omega), if_pos hpa])]
    rw [if_neg hpa]
    generalize hn : min (PGSIZE - (srcva - PGROUNDDOWN srcva)) max = n
    have hsome : ∀ i < n, userSrc pagetable srcva s i =
        some (s.mem (walkaddr pagetable (PGROUNDDOWN srcva) s + (srcva - PGROUNDDOWN srcva) + i)) :=
      fun i hi => by rw [userSrc_page (by omega), if_neg hpa]
    obtain ⟨m, rfl⟩ : ∃ m, max = n + m := ⟨max - n, by omega⟩
    -- the next round starts at the next page, unless nothing is left
    have hrest : copyinstrLoop pagetable s rounds (PGROUNDDOWN srcva + PGSIZE) m =
        scanString (fun i => userSrc pagetable srcva s (n + i)) m := by
      by_cases hm : m = 0
      · subst hm
        cases rounds with
        | zero => rfl
        | succ rounds => rw [copyinstrLoop, if_pos rfl]; rfl
      · have hle' : PGROUNDDOWN srcva ≤ srcva := Nat.div_mul_le_self _ _
        rw [show PGROUNDDOWN srcva + PGSIZE = srcva + n by omega, ih (srcva + n) m (by omega)]
        simp only [userSrc_add]
    rw [scanString_add hsome, Nat.add_sub_cancel_left, hrest]
    rcases takeString _ n with ⟨bytes, _ | _⟩
    · rfl
    · rfl

/-- **`copyinstr` accepts exactly the strings that fit** in `max` bytes with their NUL; then `dst` holds
the string and its NUL.  At most `max` bytes are written, `max` rounds are enough, and no call of
`walkaddr` panics. -/
theorem copyinstr_exact (pagetable srcva max : ℕ) (s : Phys) :
    ((copyinstr pagetable srcva max s).isSome = true ↔ ∃ k < max, StringAt pagetable srcva k s) ∧
    (∀ k < max, StringAt pagetable srcva k s → copyinstrDst pagetable srcva max s =
      (List.range (k + 1)).map fun i => byteOf pagetable (srcva + i) s) ∧
    (copyinstrDst pagetable srcva max s).length ≤ max ∧
    (∀ rounds, max ≤ rounds →
      copyinstrLoop pagetable s rounds srcva max = copyinstrLoop pagetable s max srcva max) ∧
    ∀ va, walkaddrCall pagetable va s = .ok (walkaddr pagetable va s) := by
  have hloop := fun rounds h => copyinstrLoop_eq pagetable s rounds srcva max h
  have hspec := scanString_spec (userSrc pagetable srcva s) max
  have hgot : (copyinstr pagetable srcva max s).isSome = (scanString (userSrc pagetable srcva s) max).2 := by
    rw [copyinstr, hloop max le_rfl]
    rcases scanString (userSrc pagetable srcva s) max with ⟨bytes, _ | _⟩ <;> rfl
  have hdst : copyinstrDst pagetable srcva max s =
      if (scanString (userSrc pagetable srcva s) max).2 then
        (scanString (userSrc pagetable srcva s) max).1 ++ [0]
      else (scanString (userSrc pagetable srcva s) max).1 := by
    rw [copyinstrDst, hloop max le_rfl]
    rcases scanString (userSrc pagetable srcva s) max with ⟨bytes, _ | _⟩ <;> rfl
  refine ⟨?_, fun k hk hstr => ?_, ?_, fun rounds h => by rw [hloop rounds h, hloop max le_rfl],
    fun va => walkaddrCall_eq⟩
  · rw [hgot]
    constructor
    · intro hnul
      exact ⟨_, (hspec.nul hnul).1, nulAt_iff.mp ((hspec.nulAt_iff (hspec.nul hnul).1).mpr ⟨hnul, rfl⟩)⟩
    · rintro ⟨k, hk, hstr⟩
      exact ((hspec.nulAt_iff hk).mp (nulAt_iff.mpr hstr)).1
  · obtain ⟨hnul, hlen⟩ := (hspec.nulAt_iff hk).mp (nulAt_iff.mpr hstr)
    have hbytes := hspec.bytes_eq
    rw [hlen] at hbytes
    rw [hdst, if_pos hnul, hbytes, List.range_succ, List.map_append, List.map_singleton, hstr.nul]
    refine congrArg (· ++ [0]) (List.map_congr_left fun i hi => ?_)
    rw [userSrc_eq, if_pos (hstr.mapped i (List.mem_range.mp hi).le), Option.getD_some]
  · have hle := hspec.length_le
    rw [hdst]
    split_ifs with hnul
    · rw [hnul] at hle
      simpa using hle
    · exact (Nat.le_add_right _ _).trans hle

end Xv6
