import Mathlib.Algebra.BigOperators.Group.List.Basic
import Xv6.Mem.Contents

/-!
# UserStack — the stack that `exec` sets up

The strings of `argv` go below the end of the stack page one after the other, each at the next multiple
of 16, and the array of the pointers to them goes below the last one.

* `Built.setupStack_total`: `setupStack` fails if and only if all of this takes more than a page, and
  else leaves exactly these writes.
* `argImage_arguments`: what user code finds there.
-/

namespace Xv6

/-- The bytes that a push of `n` bytes takes. -/
def room (n : ℕ) : ℕ := (n + 15) / 16 * 16

/-- The bytes that the strings take. -/
def stringRoom (argv : List (List UInt8)) : ℕ := (argv.map fun arg => room (arg.length + 1)).sum

/-- The bytes that the strings and the array of pointers take. -/
def argRoom (argv : List (List UInt8)) : ℕ := stringRoom argv + room ((argv.length + 1) * 8)

/-- The addresses of the strings of `argv`, pushed from `sp` down. -/
def pointers : List (List UInt8) → ℕ → List ℕ
  | [], _ => []
  | arg :: argv, sp => (sp - room (arg.length + 1)) :: pointers argv (sp - room (arg.length + 1))

/-- The strings with their NULs at these addresses. -/
def pushStrings : List (List UInt8) → ℕ → ByteStore → ByteStore
  | [], _, m => m
  | arg :: argv, sp, m => pushStrings argv (sp - room (arg.length + 1))
      (m.blit (sp - room (arg.length + 1)) (arg.length + 1) fun k => arg.getD k 0)

/-- The strings below `sz`, and below them the pointers. -/
def argImage (argv : List (List UInt8)) (sz : ℕ) (m : ByteStore) : ByteStore :=
  (pushStrings argv sz m).blit (sz - argRoom argv) ((argv.length + 1) * 8)
    fun k => UInt8.ofNat ((pointers argv sz).getD (k / 8) 0 / 256 ^ (k % 8))

/-- The subtractions that `pushLoop` and `setupStack` make on `sp`, after `argc` strings: from what, and
how much. -/
def subtractions (stackbase : ℕ) : List (List UInt8) → ℕ → ℕ → List (ℕ × ℕ)
  | [], argc, sp => [(sp, (argc + 1) * 8)]
  | arg :: argv, argc, sp =>
    if MAXARG ≤ argc then []
    else
      let sp' := sub64 sp (arg.length + 1)
      let sp' := sp' - sp' % 16
      (sp, arg.length + 1) :: if sp' < stackbase then [] else subtractions stackbase argv (argc + 1) sp'

section

variable {argv : List (List UInt8)} {arg : List UInt8} {sp sz base n a i j argc : ℕ} {m : ByteStore}

/-! ## Where the arguments go -/

theorem le_room : n ≤ room n := by
  unfold room
  omega

/-- A push moves `sp` down by the room that it takes. -/
theorem push_sp (n : ℕ) (hsp : sp % 16 = 0) (hn : n ≤ sp) (hlt : sp < 2 ^ 64) :
    sub64 sp n - sub64 sp n % 16 = sp - room n := by
  have h : sub64 sp n = sp - n := by
    unfold sub64 uint64
    omega
  rw [h]
  unfold room
  omega

theorem stringRoom_cons : stringRoom (arg :: argv) = room (arg.length + 1) + stringRoom argv := by
  rw [stringRoom, List.map_cons, List.sum_cons, stringRoom]

theorem stringRoom_mod (argv : List (List UInt8)) : stringRoom argv % 16 = 0 := by
  induction argv with
  | nil => rfl
  | cons arg argv ih =>
    rw [stringRoom_cons]
    unfold room
    omega

theorem argRoom_mod (argv : List (List UInt8)) : argRoom argv % 16 = 0 := by
  have := stringRoom_mod argv
  unfold argRoom room
  omega

@[simp] theorem length_pointers : (pointers argv sp).length = argv.length := by
  induction argv generalizing sp with
  | nil => rfl
  | cons arg argv ih => simp [pointers, ih]

/-- The pushes write below `sp` only, and not below the last string. -/
theorem pushStrings_frame (hroom : stringRoom argv ≤ sp) (ha : sp ≤ a ∨ a < sp - stringRoom argv) :
    pushStrings argv sp m a = m a := by
  induction argv generalizing sp m with
  | nil => rfl
  | cons arg argv ih =>
    rw [stringRoom_cons] at hroom ha
    have hle : arg.length + 1 ≤ room (arg.length + 1) := le_room
    rw [pushStrings, ih (by omega) (by omega), ByteStore.blit_out (by omega)]

/-- Each string ends at or below the one before it. -/
theorem pointers_bound (hroom : stringRoom argv ≤ sp) (hi : i < argv.length) :
    sp - stringRoom argv ≤ (pointers argv sp).getD i 0 ∧
      (pointers argv sp).getD i 0 + (argv[i].length + 1) ≤ sp := by
  induction argv generalizing sp i with
  | nil => exact absurd hi (Nat.not_lt_zero i)
  | cons arg argv ih =>
    rw [stringRoom_cons] at hroom ⊢
    have hle : arg.length + 1 ≤ room (arg.length + 1) := le_room
    cases i with
    | zero =>
      simp only [pointers, List.getD_cons_zero, List.getElem_cons_zero]
      omega
    | succ i =>
      simp only [pointers, List.getD_cons_succ, List.getElem_cons_succ]
      have hrest : stringRoom argv ≤ sp - room (arg.length + 1) := by omega
      obtain ⟨h1, h2⟩ := ih hrest (Nat.lt_of_succ_lt_succ hi)
      omega

theorem pointers_apart (hroom : stringRoom argv ≤ sp) (hij : i < j) (hj : j < argv.length) :
    (pointers argv sp).getD j 0 + (argv[j].length + 1) ≤ (pointers argv sp).getD i 0 := by
  induction argv generalizing sp i j with
  | nil => exact absurd hj (Nat.not_lt_zero j)
  | cons arg argv ih =>
    rw [stringRoom_cons] at hroom
    obtain ⟨j, rfl⟩ : ∃ k, j = k + 1 := ⟨j - 1, by omega⟩
    have hj := Nat.lt_of_succ_lt_succ hj
    cases i with
    | zero =>
      simp only [pointers, List.getD_cons_succ, List.getElem_cons_succ, List.getD_cons_zero]
      exact (pointers_bound (by omega) hj).2
    | succ i =>
      simp only [pointers, List.getD_cons_succ, List.getElem_cons_succ]
      exact ih (by omega) (by omega) hj

/-- Each string is at its address. -/
theorem pushStrings_string (hroom : stringRoom argv ≤ sp) (hi : i < argv.length)
    (hn : n ≤ argv[i].length) :
    pushStrings argv sp m ((pointers argv sp).getD i 0 + n) = argv[i].getD n 0 := by
  induction argv generalizing sp i m with
  | nil => exact absurd hi (Nat.not_lt_zero i)
  | cons arg argv ih =>
    rw [stringRoom_cons] at hroom
    cases i with
    | zero =>
      simp only [pointers, List.getD_cons_zero, List.getElem_cons_zero] at hn ⊢
      rw [pushStrings, pushStrings_frame (by omega) (Or.inl (Nat.le_add_right _ _)),
        ByteStore.blit_add (by omega)]
    | succ i =>
      simp only [pointers, List.getD_cons_succ, List.getElem_cons_succ] at hn ⊢
      exact ih (by omega) (Nat.lt_of_succ_lt_succ hi) hn

/-- The string `i` of `argv` as user code finds it through the array at `sp`. -/
def argPtr (m : ByteStore) (sp i : ℕ) : ℕ := m.load (sp + 8 * i) 8

/-- What `main` gets: `argv.length` pointers and a null pointer at `sp`, and the strings that they point
to, all of it apart and in the page below `sz`. -/
structure Arguments (argv : List (List UInt8)) (sp sz : ℕ) (m : ByteStore) : Prop where
  aligned : sp % 16 = 0
  null : argPtr m sp argv.length = 0
  string : ∀ (i : ℕ) (hi : i < argv.length), ∀ n ≤ argv[i].length,
    m (argPtr m sp i + n) = (argv[i] ++ [0]).getD n 0
  stack : sz - PGSIZE ≤ sp
  below : ∀ (i : ℕ) (hi : i < argv.length), sp + 8 * (argv.length + 1) ≤ argPtr m sp i ∧
    argPtr m sp i + (argv[i].length + 1) ≤ sz
  apart : ∀ (i j : ℕ) (_ : i < j) (hj : j < argv.length),
    argPtr m sp j + (argv[j].length + 1) ≤ argPtr m sp i
  array : sp + 8 * (argv.length + 1) ≤ sz

theorem getD_append_nul : (arg ++ [0]).getD n 0 = arg.getD n 0 := by
  simp only [List.getD_eq_getElem?_getD, List.getElem?_append]
  split_ifs with h
  · rfl
  · rw [List.getElem?_eq_none (not_lt.mp h)]
    cases hn : n - arg.length with
    | zero => rfl
    | succ k => rfl

/-- **The stack holds the arguments.** -/
theorem argImage_arguments (hroom : argRoom argv ≤ PGSIZE) (hsz : sz % 16 = 0) (hle : PGSIZE ≤ sz)
    (hlt : sz < 2 ^ 64) : Arguments argv (sz - argRoom argv) sz (argImage argv sz m) := by
  have hmod := argRoom_mod argv
  have hr : argRoom argv = stringRoom argv + room ((argv.length + 1) * 8) := rfl
  have harr : (argv.length + 1) * 8 ≤ room ((argv.length + 1) * 8) := le_room
  have hstr : stringRoom argv ≤ sz := by omega
  have hptr : ∀ i ≤ argv.length, argPtr (argImage argv sz m) (sz - argRoom argv) i =
      (pointers argv sz).getD i 0 := by
    intro i hi
    have hlt64 : (pointers argv sz).getD i 0 < 256 ^ 8 := by
      rcases hi.eq_or_lt with rfl | hi
      · rw [List.getD_eq_default _ _ (by rw [length_pointers])]
        decide
      · have := (pointers_bound hstr hi).2
        omega
    unfold argPtr
    rw [ByteStore.load_of_bytes (v := (pointers argv sz).getD i 0), Nat.mod_eq_of_lt hlt64]
    intro k hk
    unfold argImage
    rw [Nat.add_assoc, ByteStore.blit_add (by omega)]
    congr 2
    · congr 1
      omega
    · congr 1
      omega
  have hin : ∀ i (hi : i < argv.length), sz - stringRoom argv ≤ (pointers argv sz).getD i 0 ∧
      (pointers argv sz).getD i 0 + (argv[i].length + 1) ≤ sz := fun i hi => pointers_bound hstr hi
  refine ⟨by omega, ?_, fun i hi n hn => ?_, by omega, fun i hi => ?_, fun i j hij hj => ?_, by omega⟩
  · rw [hptr _ le_rfl, List.getD_eq_default _ _ (by rw [length_pointers])]
  · obtain ⟨h1, h2⟩ := hin i hi
    rw [hptr i hi.le, getD_append_nul, argImage, ByteStore.blit_out (by omega),
      pushStrings_string hstr hi hn]
  · obtain ⟨h1, h2⟩ := hin i hi
    rw [hptr i hi.le]
    omega
  · rw [hptr i (by omega), hptr j hj.le]
    exact pointers_apart hstr hij hj

/-- Nothing else is written. -/
theorem argImage_frame (hroom : argRoom argv ≤ sz) (ha : a < sz - argRoom argv) :
    argImage argv sz m a = m a := by
  have hr : argRoom argv = stringRoom argv + room ((argv.length + 1) * 8) := rfl
  rw [argImage, ByteStore.blit_out (Or.inl ha), pushStrings_frame (by omega) (by omega)]

end

/-! ## `setupStack` -/

variable [Image] {s s₀ s' : Phys} {r sz base sp va n : ℕ} {R K L : Multiset ℕ} {m : ByteStore}
  {argv : List (List UInt8)} {ustack : List ℕ} {src : ℕ → UInt8}

/-- User code has the page at `base`, but not the one below it. -/
structure StackPage (s : Phys) (r base : ℕ) : Prop where
  user : ∀ a, base ≤ a → a < base + 4096 → UserPage (leaf s.mem r) a
  guard : ∀ a, base ≤ a + 4096 → a < base → (leaf s.mem r (a / 4096)).has PTE_U = false

/-- A write to the stack page goes through. -/
theorem Built.copyout_stack (va n : ℕ) (src : ℕ → UInt8) (h : Built s₀ s r sz R K L) (hp : StackPage s r base) (hlo : base ≤ va)
    (hhi : va + n ≤ base + 4096) : ∃ s', Xv6.copyout r va src n s = .ok (0, s') ∧ StackPage s' r base := by
  have hw : Writable s.freelist.length (leaf s.mem r)
      (leafRefs UPAGES (leaf s.mem r) + (urefs s.mem R + L)) va n := by
    refine ⟨fun a h1 h2 => hp.user a (by omega) (by omega), ?_⟩
    have hnone : cowPages (leaf s.mem r) va n = [] := by
      rw [cowPages, List.map_eq_nil_iff, List.filter_eq_nil_iff]
      intro v hv hC
      obtain ⟨a, h1, h2, rfl⟩ := mem_touched.mp hv
      have hu := hp.user a (by omega) (by omega)
      rw [h.plain _ (h.heap.space.lt_upages hu) hu.2.1] at hC
      cases hC
    rw [hnone]
    trivial
  obtain ⟨res, s', hc, -, hiff⟩ := copyout_total va n src h.heap.space
  obtain rfl := hiff.mpr hw
  obtain ⟨lf', k, hW, -⟩ := copyout_spec h.heap.space hc
  refine ⟨s', hc, fun a h1 h2 => ?_, fun a h1 h2 => ?_⟩
  · have hu := (UserPage.congr hW.poked.uncowed).mpr (hp.user a h1 h2)
    refine ⟨hu.1, ?_⟩
    rw [hW.space.tree.leaf _ (pageNumber_lt hu.1)]
    exact hu.2
  · have hmax : a < MAXVA := h2.trans (hp.user base le_rfl (by omega)).1
    rw [hW.space.tree.leaf _ (pageNumber_lt hmax),
      hW.poked.uncowed.has (by decide) (by decide) (by decide)]
    exact hp.guard a h1 h2

/-- **The loop that pushes the strings** fails if and only if they do not fit. -/
theorem Built.pushLoop_total (sp : ℕ) (ustack : List ℕ) (h : Built s₀ s r sz R K L) (hm : Shows s r sz m) (hp : StackPage s r base)
    (hsp : sp % 16 = 0) (hlo : base ≤ sp) (hhi : sp ≤ base + 4096) (hbase : 4096 ≤ base)
    (hlt : base + 4096 < 2 ^ 64) (hargc : ustack.length + argv.length < MAXARG)
    (hlen : ∀ arg ∈ argv, arg.length < PGSIZE) :
    ∃ o s', Xv6.pushLoop r base argv sp ustack s = .ok (o, s') ∧ Built s₀ s' r sz R K L ∧
      ((o = none ∧ sp < base + stringRoom argv) ∨
        (o = some (sp - stringRoom argv, ustack ++ pointers argv sp) ∧ base + stringRoom argv ≤ sp ∧
          StackPage s' r base ∧ Shows s' r sz (pushStrings argv sp m))) := by
  induction argv generalizing s sp ustack m with
  | nil =>
    refine ⟨_, s, rfl, h, Or.inr ⟨?_, hlo, hp, hm⟩⟩
    rw [pointers, List.append_nil]
    rfl
  | cons arg argv ih =>
    have harg : arg.length + 1 ≤ 4096 := hlen arg List.mem_cons_self
    have hargc' : ustack.length + (argv.length + 1) < 32 := hargc
    have hpush := push_sp (arg.length + 1) hsp (by omega) (by omega)
    have hle : arg.length + 1 ≤ room (arg.length + 1) := le_room
    have hmod : room (arg.length + 1) % 16 = 0 := Nat.mul_mod_left _ _
    have hroom : room (arg.length + 1) ≤ 4096 := by
      unfold room
      omega
    have hcons : stringRoom (arg :: argv) = room (arg.length + 1) + stringRoom argv := stringRoom_cons
    unfold Xv6.pushLoop
    dsimp only
    rw [if_neg (show ¬ 32 ≤ ustack.length by omega), hpush]
    by_cases hfit : sp - room (arg.length + 1) < base
    · rw [if_pos hfit]
      exact ⟨none, s, rfl, h, Or.inl ⟨rfl, by omega⟩⟩
    rw [if_neg hfit]
    obtain ⟨s₁, hc, hp₁⟩ := h.copyout_stack (sp - room (arg.length + 1)) (arg.length + 1)
      (fun k => arg.getD k 0) hp (by omega) (by omega)
    have h₁ := h.copyout hc
    have hm₁ := h.copyout_shows hm hc rfl
    obtain ⟨o, s', hl, h', hcase⟩ := ih (sp - room (arg.length + 1))
      (ustack ++ [sp - room (arg.length + 1)]) h₁ hm₁ hp₁ (by omega) (by omega) (by omega)
      (by rw [List.length_append, List.length_singleton]; show _ < 32; omega)
      fun a ha => hlen a (List.mem_cons_of_mem arg ha)
    refine ⟨o, s', ?_, h', ?_⟩
    · rw [hc, ok_bind]
      exact hl
    rcases hcase with ⟨ho, hno⟩ | ⟨ho, hyes, hp', hm'⟩
    · exact Or.inl ⟨ho, by omega⟩
    · refine Or.inr ⟨?_, by omega, hp', hm'⟩
      rw [ho, hcons, Nat.sub_add_eq, pointers, List.append_assoc, List.singleton_append]

/-- The guard page and the stack page. -/
theorem Built.stackPage {sz₁ : ℕ} {s₁ : Phys} (h : Built s₀ s r sz R K L) (hm : Shows s r sz m)
    (hsz : sz % 4096 = 0) (hu : Xv6.uvmalloc r sz (uint64 (sz + 2 * PGSIZE)) PTE_W s = .ok (sz₁, s₁))
    (h0 : sz₁ ≠ 0) : sz₁ = sz + 2 * PGSIZE ∧ sz₁ ≤ TRAPFRAME ∧ ∃ s₂,
      Xv6.uvmclear r (sub64 sz₁ (2 * PGSIZE)) s₁ = .ok s₂ ∧ Built s₀ s₂ r sz₁ R K L ∧ Shows s₂ r sz₁ m ∧
        StackPage s₂ r (sub64 sz₁ PGSIZE) := by
  have hle : sz ≤ 274877898752 := h.shape.le
  obtain ⟨hres, hm₁, hU⟩ := h.uvmalloc_shows hm (by decide) hu h0
  obtain ⟨hz, -⟩ | ⟨-, h₁⟩ := h.uvmalloc (by decide) hu
  · exact absurd hz h0
  have hle₁ : sz₁ ≤ 274877898752 := h₁.shape.le
  have hsz₁ : sz₁ = sz + 8192 := by
    unfold uint64 at hres
    simp only [PGSIZE] at hres
    omega
  have hguard : sub64 sz₁ (2 * PGSIZE) = sz := by
    unfold sub64 uint64
    simp only [PGSIZE]
    omega
  have hbase : sub64 sz₁ PGSIZE = sz + 4096 := by
    unfold sub64 uint64
    simp only [PGSIZE]
    omega
  have hp : pages sz = sz / 4096 ∧ pages sz₁ = sz / 4096 + 2 := by
    unfold pages
    omega
  have hsz' : sz < MAXVA := by
    show sz < 274877906944
    omega
  obtain ⟨b, hw, hb⟩ := walk_false_total h₁.heap.space.tree hsz' (h₁.full _ (by omega))
  obtain ⟨s₂, hc⟩ : ∃ s₂, Xv6.uvmclear r sz s₁ = .ok s₂ := by
    unfold Xv6.uvmclear
    rw [hw]
    exact ⟨_, rfl⟩
  obtain ⟨-, -, -, hl⟩ := h₁.heap.uvmclear hc
  have h₂ := h₁.uvmclear hc
  rw [hguard, hbase]
  refine ⟨hsz₁, h₁.shape.le, s₂, hc, h₂, h₁.uvmclear_shows hm₁ hc, fun a h1 h2 => ?_, fun a h1 h2 => ?_⟩
  · have ha : a < 274877906944 := by omega
    refine ⟨ha, h₂.full _ (by omega), ?_⟩
    rw [hl _ (pageNumber_lt ha), Function.update_of_ne (by omega)]
    exact hU _ (by omega) (by omega)
  · have ha : a < 274877906944 := by omega
    rw [hl _ (pageNumber_lt ha), show a / 4096 = sz / 4096 by omega, Function.update_self]
    exact has_and_not_self

/-- **`setupStack`**, once it has its two pages, fails if and only if the arguments take more than one. -/
theorem Built.setupStack_total {sz₁ : ℕ} {s₁ : Phys} (h : Built s₀ s r sz R K L) (hm : Shows s r sz m)
    (hargc : argv.length < MAXARG) (hlen : ∀ arg ∈ argv, arg.length < PGSIZE)
    (hu : Xv6.uvmalloc r (PGROUNDUP sz) (uint64 (PGROUNDUP sz + 2 * PGSIZE)) PTE_W s = .ok (sz₁, s₁))
    (h0 : sz₁ ≠ 0) : sz₁ = PGROUNDUP sz + 2 * PGSIZE ∧ ∃ o s',
      Xv6.setupStack r sz argv s = .ok (o, sz₁, s') ∧ Built s₀ s' r sz₁ R K L ∧
        ((o = none ∧ PGSIZE < argRoom argv) ∨
          (o = some (sz₁ - argRoom argv) ∧ argRoom argv ≤ PGSIZE ∧
            StackPage s' r (sz₁ - PGSIZE) ∧ Shows s' r sz₁ (argImage argv sz₁ m))) := by
  have hmod : PGROUNDUP sz % 4096 = 0 := by
    unfold PGROUNDUP
    simp only [PGSIZE]
    omega
  obtain ⟨hsz₁, hle, s₂, hc, h₂, hm₂, hp₂⟩ := h.roundup.stackPage (hm.roundup h.shape.le) hmod hu h0
  have hle' : sz₁ ≤ 274877898752 := hle
  have hsz₁' : sz₁ = PGROUNDUP sz + 8192 := hsz₁
  have hbase : sub64 sz₁ PGSIZE = sz₁ - 4096 := by
    unfold sub64 uint64
    simp only [PGSIZE]
    omega
  rw [hbase] at hp₂
  obtain ⟨o, s₃, hl, h₃, hcase⟩ := h₂.pushLoop_total sz₁ [] hm₂ hp₂ (by omega) (by omega)
    (by omega) (by omega) (by omega) (by rw [List.length_nil, Nat.zero_add]; exact hargc) hlen
  have hroom : argRoom argv = stringRoom argv + room ((argv.length + 1) * 8) := rfl
  refine ⟨hsz₁, ?_⟩
  unfold Xv6.setupStack
  simp only [hu, ok_bind, h0, if_false, hc, hbase, hl]
  rcases hcase with ⟨rfl, hno⟩ | ⟨rfl, hyes, hp₃, hm₃⟩
  · exact ⟨none, s₃, rfl, h₃, Or.inl ⟨rfl, by show 4096 < _; omega⟩⟩
  dsimp only
  rw [List.nil_append, length_pointers]
  have hargc' : argv.length < 32 := hargc
  have hstr := stringRoom_mod argv
  have hsp : (sz₁ - stringRoom argv) % 16 = 0 := by omega
  have hpush := push_sp ((argv.length + 1) * 8) hsp (by omega) (by omega)
  have hmod' : room ((argv.length + 1) * 8) % 16 = 0 := Nat.mul_mod_left _ _
  have hle8 : (argv.length + 1) * 8 ≤ room ((argv.length + 1) * 8) := le_room
  rw [hpush, Nat.sub_sub, ← hroom]
  by_cases hfit : sz₁ - argRoom argv < sz₁ - 4096
  · rw [if_pos hfit]
    exact ⟨none, s₃, rfl, h₃, Or.inl ⟨rfl, by show 4096 < _; omega⟩⟩
  rw [if_neg hfit]
  have hsmall : room ((argv.length + 1) * 8) ≤ 272 := by
    unfold room
    omega
  obtain ⟨s₄, hc₄, hp₄⟩ := h₃.copyout_stack (sz₁ - argRoom argv) ((argv.length + 1) * 8)
    (fun k => UInt8.ofNat ((pointers argv sz₁).getD (k / 8) 0 / 256 ^ (k % 8))) hp₃ (by omega)
    (by omega)
  rw [hc₄, ok_bind]
  exact ⟨_, s₄, rfl, h₃.copyout hc₄, Or.inr ⟨rfl, by show _ ≤ 4096; omega, hp₄, h₃.copyout_shows hm₃ hc₄ rfl⟩⟩

end Xv6
