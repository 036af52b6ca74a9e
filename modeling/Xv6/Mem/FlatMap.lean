import Xv6.Lib.Runs
import Xv6.Mem.Links
import Xv6.Mem.Transfer

/-!
# FlatMap — what a page table is for

A page table is used through `walk`, `mappages` and `uvmunmap`.  Seen through these calls it is a flat
map from pages to entries: `translation r va s` is the entry that `walk` finds.

* `TableOp.step`: one call on a page table; runs of such calls are `Runs.Steps`.
* `Table s r lf F`: the invariant of these runs.
* `mapLoop_spec`: what `mappages` does to the flat map, whether or not it gets all the tables it needs.
* `table_flatMap`: **every page table built from an empty root is a flat map** (`FlatMap`).
-/

namespace Xv6

/-- The calls that build a page table. -/
inductive TableOp
  | walk (va : ℕ)
  | mappages (va size pa : ℕ) (perm : Pte)
  | uvmunmap (va npages : ℕ)

/-- The entry that `walk` finds for `va`, `0` if a table is missing. -/
def translation (pagetable va : ℕ) (s : Phys) : Pte :=
  match walk pagetable va false s with
  | .ok (some pte, _) => readPte s.mem pte
  | _ => 0#64

theorem walk_returns (r va : ℕ) (alloc : Bool) (s : Phys) (hva : va < MAXVA) :
    ∃ o s', walk r va alloc s = .ok (o, s') := by
  unfold walk
  rw [if_neg (not_le.mpr hva)]
  exact ⟨_, _, rfl⟩

/-- The page-table page that a list of indices leads to. -/
def tablePage (pagetable : ℕ) (path : List ℕ) (s : Phys) : Option ℕ :=
  Radix.follow link (entry s.mem) pagetable path

/-- The entry maps the page `pa` with `perm`. -/
def Leads (e : Pte) (pa : ℕ) (perm : Pte) : Prop :=
  e = PA2PTE pa ||| perm ||| PTE_V ∧
    (Low perm → PTE2PA e = uint64 pa ∧ PTE_FLAGS e = perm ||| PTE_V)

/-- From `s` to `s'` the pages from `a` up to `stop` have been mapped to those from `pa` on, and
nothing else has changed. -/
def MapsPages (pagetable a stop pa : ℕ) (perm : Pte) (s s' : Phys) : Prop :=
  ∀ x, (a ≤ PGROUNDDOWN x ∧ PGROUNDDOWN x < stop →
      Leads (translation pagetable x s') (pa + (PGROUNDDOWN x - a)) perm) ∧
    (¬ (a ≤ PGROUNDDOWN x ∧ PGROUNDDOWN x < stop) →
      translation pagetable x s' = translation pagetable x s)

variable [Image]

/-- A page table is a flat map. -/
structure FlatMap (r : ℕ) (s : Phys) : Prop where
  /-- No page-table page is reached by two index paths. -/
  path : ∀ path path' t, Radix.IsPath 512 2 path → Radix.IsPath 512 2 path' →
    tablePage r path s = some t → tablePage r path' s = some t → path = path'
  /-- Addresses of different pages have different entries. -/
  slot : ∀ va va' pte, walk r va false s = .ok (some pte, s) → walk r va' false s = .ok (some pte, s) →
    PGROUNDDOWN va = PGROUNDDOWN va'
  /-- `mappages` on a range that is not mapped. -/
  map : ∀ va size pa perm, 0 < size → va + size ≤ MAXVA → pa % PGSIZE = 0 →
    (∀ x, PGROUNDDOWN va ≤ PGROUNDDOWN x → PGROUNDDOWN x ≤ PGROUNDDOWN (va + size - 1) →
      (translation r x s).has PTE_V = false) →
    ∃ res s', mappages r va size pa perm s = .ok (res, s') ∧
      (res = 0 ∧ MapsPages r (PGROUNDDOWN va) (PGROUNDDOWN (va + size - 1) + PGSIZE) pa perm s s' ∨
        res = -1 ∧ ∃ stop ≤ PGROUNDDOWN (va + size - 1),
          MapsPages r (PGROUNDDOWN va) stop pa perm s s')
  /-- `uvmunmap` returns on pages that are mapped. -/
  unmap_returns : ∀ va npages, va % PGSIZE = 0 → va + npages * PGSIZE ≤ MAXVA →
    (∀ x, va ≤ x → x < va + npages * PGSIZE → IsLeaf (translation r x s)) →
    ∃ s', uvmunmap r va npages false s = .ok s'
  /-- It removes these pages and no others. -/
  unmap : ∀ va npages s', va + npages * PGSIZE < 2 ^ 64 → uvmunmap r va npages false s = .ok s' →
    ∀ x, translation r x s' =
      if va ≤ x ∧ x < va + npages * PGSIZE then 0#64 else translation r x s
  /-- `freewalk` of a table without mappings returns every page-table page once. -/
  free : (∀ x, (translation r x s).has PTE_V = false) →
    ∃ s' T, freewalk 3 r s = .ok s' ∧ (s'.freelist : Multiset ℕ) = T + s.freelist ∧ T.Nodup ∧
      ∀ t, t ∈ T ↔ ∃ path, Radix.IsPath 512 2 path ∧ tablePage r path s = some t

/-- `walk` allocates, `uvmunmap` does not free. -/
def TableOp.step (pagetable : ℕ) (s : Phys) : TableOp → Option (Except Panic Phys)
  | .walk va => some ((Xv6.walk pagetable va true s).map Prod.snd)
  | .mappages va size pa perm => some ((Xv6.mappages pagetable va size pa perm s).map Prod.snd)
  | .uvmunmap va npages => some (Xv6.uvmunmap pagetable va npages false s)

/-- The page table at `r` has the entries `lf`.  Its pages have a single reference each, `F` are all
other references, its links can be told from mappings, and nothing is mapped from `MAXVA` on. -/
structure Table (s : Phys) (r : ℕ) (lf : ℕ → Pte) (F : Multiset ℕ) : Prop where
  owns : Owns s (tables s.mem r) F
  linked : Linked s.mem r
  leaf : ∀ v < VPAGES, Xv6.leaf s.mem r v = lf v
  top : ∀ v, MAXVA ≤ v * 4096 → (lf v).has PTE_V = false

variable {s s' s₁ : Phys} {r a n k v va size pa npages : ℕ} {T F : Multiset ℕ} {lf : ℕ → Pte}
  {perm : Pte} {o : Option ℕ} {res : ℤ}

theorem Table.tree (h : Table s r lf F) : Tree s.mem r (tables s.mem r) lf := ⟨rfl, h.leaf⟩

/-- The form that the lemmas about single calls take. -/
theorem Table.add (h : Table s r lf F) : Owns s (tables s.mem r + 0) F := by
  rw [add_zero]
  exact h.owns

theorem Table.of_tree (hT : Tree s.mem r T lf) (hO : Owns s (T + 0) F) (hl : Linked s.mem r)
    (htop : ∀ v, MAXVA ≤ v * 4096 → (lf v).has PTE_V = false) : Table s r lf F := by
  refine ⟨?_, hl, hT.leaf, htop⟩
  rw [hT.tables, ← add_zero T]
  exact hO

/-- A translation is an entry of the flat map. -/
theorem Table.translation (h : Table s r lf F) (hva : va < MAXVA) :
    translation r va s = lf (va / 4096) := by
  obtain ⟨o, t, hw⟩ := walk_returns r va false s hva
  unfold Xv6.translation
  rw [hw]
  obtain ⟨-, -, ⟨rfl, h0⟩ | ⟨b, rfl, hb⟩⟩ := walk_false_spec h.tree hw
  · exact h0.symm
  · exact hb.read h.tree (pageNumber_lt hva)

/-! ## `mappages` -/

/-- The map with the `k` pages from `a` on mapped to those from `pa` on. -/
def mapRange (lf : ℕ → Pte) (a k pa : ℕ) (perm : Pte) : ℕ → Pte :=
  fun v => if a ≤ v ∧ v < a + k then PA2PTE (pa + (v - a) * 4096) ||| perm ||| PTE_V else lf v

omit [Image] in
theorem mapRange_zero : mapRange lf a 0 pa perm = lf := by
  funext v
  exact if_neg (by omega)

omit [Image] in
theorem mapRange_succ :
    mapRange (Function.update lf a (PA2PTE pa ||| perm ||| PTE_V)) (a + 1) k (pa + 4096) perm =
      mapRange lf a (k + 1) pa perm := by
  funext v
  unfold mapRange
  by_cases hv : v = a
  · subst hv
    rw [if_neg (by omega), Function.update_self, if_pos (by omega), Nat.sub_self, Nat.zero_mul,
      Nat.add_zero]
  · rw [Function.update_of_ne hv]
    by_cases hin : a + 1 ≤ v ∧ v < a + 1 + k
    · have hpa : pa + 4096 + (v - (a + 1)) * 4096 = pa + (v - a) * 4096 := by omega
      rw [if_pos hin, if_pos (by omega), hpa]
    · rw [if_neg hin, if_neg (by omega)]

/-- `walk` with allocation: the entries are as before, and the one of `a` can be written. -/
theorem Table.walk (h : Table s r lf F) (hw : Xv6.walk r a true s = .ok (o, s₁)) :
    Table s₁ r lf F ∧ (o = none ∨ ∃ b, o = some b ∧ readPte s₁.mem b = lf (a / 4096) ∧
      ∀ e, Table (s₁.setPte b e) r (Function.update lf (a / 4096) e) F) := by
  have hl₁ := walk_linked h.linked h.tree h.add hw
  obtain ⟨hva, T', hT', hO', -, hcases⟩ := walk_true_spec h.tree h.add hw
  have hv := pageNumber_lt hva
  refine ⟨Table.of_tree hT' hO' hl₁ h.top, ?_⟩
  rcases hcases with ⟨ho, -⟩ | ⟨b, ho, hb⟩
  · exact Or.inl ho
  · refine Or.inr ⟨b, ho, hb.read hT' hv, fun e => ?_⟩
    obtain ⟨hT₂, hO₂, -⟩ := EntryAt.set hT' hO' hb hv e
    refine Table.of_tree hT₂ hO₂ (hl₁.set hT' hO' hb e) fun w hw => ?_
    rw [Function.update_of_ne (by omega)]
    exact h.top w hw

/-- One round: either there is no memory for a table, or one page is mapped. -/
theorem mapLoop_round (h : Table s r lf F) (hm : mapLoop r perm n a pa s = .ok (res, s')) :
    (res = -1 ∧ Table s' r lf F) ∨
    ∃ t, Table t r (Function.update lf (a / 4096) (PA2PTE pa ||| perm ||| PTE_V)) F ∧
      (n = 0 ∧ res = 0 ∧ s' = t ∨
        ∃ m, n = m + 1 ∧ mapLoop r perm m (a + 4096) (pa + 4096) t = .ok (res, s')) := by
  unfold mapLoop at hm
  cases hw : Xv6.walk r a true s with
  | error e => rw [hw] at hm; cases hm
  | ok x =>
    obtain ⟨o, s₁⟩ := x
    rw [hw] at hm
    obtain ⟨h₁, rfl | ⟨b, rfl, -, hset⟩⟩ := h.walk hw
    · cases hm
      exact Or.inl ⟨rfl, h₁⟩
    · simp only at hm
      split_ifs at hm
      refine Or.inr ⟨_, hset _, ?_⟩
      cases n with
      | zero =>
        cases hm
        exact Or.inl ⟨rfl, rfl, rfl⟩
      | succ m => exact Or.inr ⟨m, rfl, hm⟩

/-- **`mappages`** maps the pages one after the other, up to the one it has no table for. -/
theorem mapLoop_spec (h : Table s r lf F) (ha : a % 4096 = 0)
    (hm : mapLoop r perm n a pa s = .ok (res, s')) :
    ∃ k, Table s' r (mapRange lf (a / 4096) k pa perm) F ∧
      (res = 0 ∧ k = n + 1 ∨ res = -1 ∧ k ≤ n) := by
  induction n generalizing s a pa lf with
  | zero =>
    rcases mapLoop_round h hm with ⟨rfl, h'⟩ | ⟨t, ht, ⟨-, rfl, rfl⟩ | ⟨m, hm, -⟩⟩
    · exact ⟨0, by rwa [mapRange_zero], Or.inr ⟨rfl, le_rfl⟩⟩
    · exact ⟨1, by rwa [← mapRange_succ, mapRange_zero], Or.inl ⟨rfl, rfl⟩⟩
    · cases hm
  | succ n ih =>
    rcases mapLoop_round h hm with ⟨rfl, h'⟩ | ⟨t, ht, ⟨h0, -⟩ | ⟨m, hm, hrest⟩⟩
    · exact ⟨0, by rwa [mapRange_zero], Or.inr ⟨rfl, Nat.zero_le _⟩⟩
    · cases h0
    · cases hm
      obtain ⟨ha', hdiv⟩ := next_page ha
      obtain ⟨k, hk, hres⟩ := ih ht ha' hrest
      rw [hdiv, mapRange_succ] at hk
      refine ⟨k + 1, hk, ?_⟩
      rcases hres with ⟨h0, hkn⟩ | ⟨h1, hkn⟩
      · exact Or.inl ⟨h0, by omega⟩
      · exact Or.inr ⟨h1, by omega⟩

/-- On pages that are not mapped `mappages` returns. -/
theorem mapLoop_total (pa : ℕ) (perm : Pte) (h : Table s r lf F) (ha : a % 4096 = 0) (hlt : a + n * 4096 < MAXVA)
    (hfree : ∀ v, a / 4096 ≤ v → v ≤ a / 4096 + n → (lf v).has PTE_V = false) :
    ∃ res s', mapLoop r perm n a pa s = .ok (res, s') := by
  induction n generalizing s a pa lf with
  | zero =>
    obtain ⟨o, s₁, hw⟩ := walk_returns r a true s (by omega)
    unfold mapLoop
    rw [hw]
    obtain ⟨-, rfl | ⟨b, rfl, hread, -⟩⟩ := h.walk hw
    · exact ⟨-1, s₁, rfl⟩
    · simp only [hread, hfree _ le_rfl le_rfl, Bool.false_eq_true, if_false]
      exact ⟨0, _, rfl⟩
  | succ n ih =>
    obtain ⟨o, s₁, hw⟩ := walk_returns r a true s (by omega)
    unfold mapLoop
    rw [hw]
    obtain ⟨-, rfl | ⟨b, rfl, hread, hset⟩⟩ := h.walk hw
    · exact ⟨-1, s₁, rfl⟩
    · simp only [hread, hfree _ le_rfl (Nat.le_add_right _ _), Bool.false_eq_true, if_false]
      obtain ⟨ha', hdiv⟩ := next_page ha
      have hfree' : ∀ v, (a + 4096) / 4096 ≤ v → v ≤ (a + 4096) / 4096 + n →
          (Function.update lf (a / 4096) (PA2PTE pa ||| perm ||| PTE_V) v).has PTE_V = false := by
        intro v hv hv'
        rw [Function.update_of_ne (by omega)]
        exact hfree v (by omega) (by omega)
      have hlt' : a + 4096 + n * 4096 < MAXVA := by omega
      exact ih _ (hset _) ha' hlt' hfree'

omit [Image] in
/-- The rounds of a range below `MAXVA`. -/
theorem mappages_rounds (h0 : 0 < size) (hlt : va + size ≤ MAXVA) :
    mappages r va size pa perm s =
      mapLoop r perm ((va + size - 1) / 4096 - va / 4096) (va / 4096 * 4096) pa s := by
  have hlt' : va + size ≤ 274877906944 := hlt
  have hdown : ∀ x, PGROUNDDOWN x = x / 4096 * 4096 := fun x => rfl
  have hlast : uint64 (va + size - 1) = va + size - 1 := Nat.mod_eq_of_lt (by omega)
  have hrounds : uint64 (2 ^ 64 + (va + size - 1) / 4096 * 4096 - va / 4096 * 4096) / PGSIZE =
      (va + size - 1) / 4096 - va / 4096 := by
    unfold uint64
    simp only [PGSIZE]
    omega
  unfold mappages
  rw [if_neg h0.ne']
  simp only [hdown, hlast, hrounds]

/-- `mappages` on a range that is not mapped. -/
theorem Table.mappages (pa : ℕ) (perm : Pte) (h : Table s r lf F) (h0 : 0 < size) (hlt : va + size ≤ MAXVA)
    (hfree : ∀ v, va / 4096 ≤ v → v ≤ (va + size - 1) / 4096 → (lf v).has PTE_V = false) :
    ∃ res s' k, Xv6.mappages r va size pa perm s = .ok (res, s') ∧
      Table s' r (mapRange lf (va / 4096) k pa perm) F ∧
      (res = 0 ∧ k = (va + size - 1) / 4096 - va / 4096 + 1 ∨
        res = -1 ∧ k ≤ (va + size - 1) / 4096 - va / 4096) := by
  have hdiv : va / 4096 * 4096 / 4096 = va / 4096 := Nat.mul_div_cancel _ (by decide)
  have hle : va / 4096 ≤ (va + size - 1) / 4096 := Nat.div_le_div_right (by omega)
  have hlt' : va / 4096 * 4096 + ((va + size - 1) / 4096 - va / 4096) * 4096 < MAXVA := by omega
  rw [mappages_rounds h0 hlt]
  obtain ⟨res, s', hm⟩ := mapLoop_total pa perm h (Nat.mul_mod_left _ _) hlt'
    fun v hv hv' => hfree v (by omega) (by omega)
  obtain ⟨k, hk, hres⟩ := mapLoop_spec h (Nat.mul_mod_left _ _) hm
  rw [hdiv] at hk
  exact ⟨res, s', k, hm, hk, hres⟩

/-! ## `uvmunmap` and `freewalk` -/

/-- `uvmunmap` without `do_free`. -/
theorem Table.unmapLoop (h : Table s r lf F) (ha : a % 4096 = 0)
    (hu : Xv6.unmapLoop r false n a s = .ok s') : Table s' r (clearPages lf (a / 4096) n) F := by
  obtain ⟨hT, hO, -⟩ := unmapLoop_keep_spec h.tree h.add ha hu
  refine Table.of_tree hT hO (unmapLoop_keep_linked h.linked h.tree h.add ha hu) fun v hv => ?_
  unfold clearPages
  split_ifs
  · exact zero_has _
  · exact h.top v hv

/-- **`freewalk`** on a table that maps nothing: its pages go to the free list. -/
theorem Table.freewalk (h : Table s r lf F) (hV : ∀ v < VPAGES, (lf v).has PTE_V = false) :
    ∃ s', Xv6.freewalk 3 r s = .ok s' ∧
      (s'.freelist : Multiset ℕ) = tables s.mem r + s.freelist := by
  have hR : ∀ v < VPAGES, Readable (lf v) := by
    intro v hv hvV
    rw [hV v hv] at hvV
    cases hvV
  obtain ⟨s', hs'⟩ := freewalk_total h.linked h.tree h.add hV
  obtain ⟨hO, -, -⟩ := freewalk_spec h.tree h.add hR hs'
  refine ⟨s', hs', hO.alloc.free_add h.owns.alloc h.owns.nodup (fun p hp hF => ?_) fun p => ?_⟩
  · rw [zero_add] at hF
    exact h.owns.ne hp hF rfl
  · rw [zero_add]
    exact Multiset.mem_add

/-! ## Runs -/

/-- An empty page table. -/
theorem uvmcreate_table (h : Alloc s F) (hc : uvmcreate s = (some r, s')) :
    Table s' r (fun _ => 0#64) F := by
  have hl := uvmcreate_linked hc
  have hdis : Disjoint (0 : Multiset ℕ) F :=
    Multiset.disjoint_left.mpr fun hp => absurd hp (Multiset.notMem_zero _)
  have hO : Owns s 0 F := ⟨by rwa [zero_add], Multiset.nodup_zero, hdis⟩
  unfold uvmcreate at hc
  rcases hO.kalloc with ⟨-, hk⟩ | ⟨p, t, hk, -, -, -, hO', -⟩
  · rw [hk] at hc
    cases hc
  · rw [hk] at hc
    cases hc
    have hzero : ∀ i < 512, entry (t.memset r PGSIZE 0).mem r i = 0#64 := fun i hi =>
      entry_fill_zero hi
    refine ⟨?_, hl, fun v _ => leafAt_of_zero hzero, fun v _ => zero_has _⟩
    rw [tables, tablesAt_of_zero hzero]
    exact hO'.memset r PGSIZE 0

/-- A call keeps the page table. -/
theorem Table.step {op : TableOp} (h : Table s r lf F) (hs : op.step r s = some (.ok s')) :
    ∃ lf', Table s' r lf' F := by
  cases op with
  | walk va =>
    obtain ⟨⟨o, t⟩, hw, rfl⟩ := map_ok (Option.some.inj hs)
    exact ⟨lf, (h.walk hw).1⟩
  | mappages va size pa perm =>
    obtain ⟨⟨res, t⟩, hm, rfl⟩ := map_ok (Option.some.inj hs)
    unfold Xv6.mappages at hm
    split_ifs at hm with h0
    obtain ⟨k, hk, -⟩ := mapLoop_spec h (Nat.mul_mod_left _ _) hm
    exact ⟨_, hk⟩
  | uvmunmap va npages =>
    have hu : Xv6.uvmunmap r va npages false s = .ok s' := Option.some.inj hs
    unfold Xv6.uvmunmap at hu
    split_ifs at hu with ha
    exact ⟨_, h.unmapLoop (not_not.mp ha) hu⟩

/-- **Every page table built from an empty root.** -/
theorem table_run {s₀ : Phys} (h₀ : Alloc s₀ F) (hc : uvmcreate s₀ = (some r, s₁))
    (hrun : Runs.Steps (TableOp.step r) (fun _ _ => True) s₁ s) : ∃ lf, Table s r lf F := by
  refine hrun.invariant (I := fun t => ∃ lf, Table t r lf F) ⟨_, uvmcreate_table h₀ hc⟩ ?_
  rintro t op t' ⟨lf, ht⟩ - hs
  exact ht.step hs

section

omit [Image]

theorem translation_top (hva : MAXVA ≤ va) : translation r va s = 0#64 := by
  unfold translation walk
  rw [if_pos hva]

/-- On all page-aligned 64-bit addresses. -/
theorem leads_self (hpa : pa % 4096 = 0) : Leads (PA2PTE pa ||| perm ||| PTE_V) pa perm := by
  have hself : PTE2PA (PA2PTE pa) = uint64 pa := by
    unfold PTE2PA PA2PTE uint64
    simp only [BitVec.toNat_shiftLeft, BitVec.toNat_ushiftRight, BitVec.toNat_ofNat,
      Nat.shiftLeft_eq, Nat.shiftRight_eq_div_pow]
    omega
  refine ⟨rfl, fun hperm => ?_⟩
  have hlow : Low (perm ||| PTE_V) := Low.or hperm (by decide)
  rw [BitVec.or_assoc]
  exact ⟨(PTE2PA_or hlow).trans hself, PTE_FLAGS_PA2PTE hlow⟩

end

/-- The flat map before and after, seen through `walk`. -/
theorem Table.mapsPages (h : Table s r lf F) (h' : Table s' r (mapRange lf (va / 4096) k pa perm) F)
    (hpa : pa % 4096 = 0) (hk : (va / 4096 + k) * 4096 ≤ MAXVA) :
    MapsPages r (PGROUNDDOWN va) ((va / 4096 + k) * 4096) pa perm s s' := by
  have hdown : ∀ x, PGROUNDDOWN x = x / 4096 * 4096 := fun x => rfl
  intro x
  rw [hdown, hdown]
  by_cases hx : x < MAXVA
  · rw [h.translation hx, h'.translation hx]
    unfold mapRange
    constructor
    · rintro ⟨h1, h2⟩
      rw [if_pos (by omega), ← Nat.sub_mul]
      exact leads_self (by omega)
    · intro hout
      rw [if_neg (by omega)]
  · rw [translation_top (not_lt.mp hx), translation_top (not_lt.mp hx)]
    exact ⟨fun hin => absurd hin.2 (by omega), fun _ => rfl⟩

/-- An entry lies in one table only, and there at one index. -/
theorem Table.slot {va' pte : ℕ} (h : Table s r lf F) (hw : Xv6.walk r va false s = .ok (some pte, s))
    (hw' : Xv6.walk r va' false s = .ok (some pte, s)) : va / 4096 = va' / 4096 := by
  have hnd : (tablesAt s.mem 2 r).Nodup := h.owns.nodup
  have hmod : ∀ {t v : ℕ}, slotAt s.mem 2 r v = some t → t % 4096 = 0 := fun ht =>
    (h.owns.ok_left (Radix.slot_mem (by decide) ht)).1
  obtain ⟨hva, -, ⟨hn, -⟩ | ⟨b, hb, t, ht, rfl⟩⟩ := walk_false_spec h.tree hw
  · cases hn
  obtain ⟨hva', -, ⟨hn, -⟩ | ⟨b', hb', t', ht', rfl⟩⟩ := walk_false_spec h.tree hw'
  · cases hn
  have heq : t + 8 * indexAt 0 (va / 4096) = t' + 8 * indexAt 0 (va' / 4096) :=
    (Option.some.inj hb).symm.trans (Option.some.inj hb')
  have hi := indexAt_lt 0 (va / 4096)
  have hi' := indexAt_lt 0 (va' / 4096)
  have hm := hmod ht
  have hm' := hmod ht'
  obtain rfl : t = t' := by omega
  have hidx : indexAt 0 (va / 4096) = indexAt 0 (va' / 4096) := by omega
  exact Radix.key_eq (by decide) hnd ht ht' hidx (pageNumber_lt hva) (pageNumber_lt hva')

/-- The calls on a table, seen through `walk`. -/
theorem Table.flatMap (h : Table s r lf F) : FlatMap r s := by
  have hnd : (tablesAt s.mem 2 r).Nodup := h.owns.nodup
  have hdown : ∀ x, PGROUNDDOWN x = x / 4096 * 4096 := fun x => rfl
  -- an address in the page of number `v`
  have hpage : ∀ v, v * 4096 < MAXVA → Xv6.translation r (v * 4096) s = lf v := by
    intro v hv
    rw [h.translation hv, Nat.mul_div_cancel _ (by decide)]
  refine ⟨fun path path' t hp hp' ht ht' => Radix.follow_inj hnd hp hp' ht ht', ?_, ?_, ?_, ?_, ?_⟩
  · intro va va' pte hw hw'
    rw [hdown, hdown, h.slot hw hw']
  · intro va size pa perm h0 hlt hpa hfree
    have hlt' : va + size ≤ 274877906944 := hlt
    obtain ⟨res, s', k, hm, hk, hres⟩ := h.mappages pa perm h0 hlt fun v hv hv' => by
      rw [← hpage v (by show _ < 274877906944; omega)]
      refine hfree _ ?_ ?_
      all_goals
        rw [hdown, hdown]
        omega
    refine ⟨res, s', hm, ?_⟩
    rcases hres with ⟨rfl, rfl⟩ | ⟨rfl, hkn⟩
    · have hstop : PGROUNDDOWN (va + size - 1) + PGSIZE =
          (va / 4096 + ((va + size - 1) / 4096 - va / 4096 + 1)) * 4096 := by
        show (va + size - 1) / 4096 * 4096 + 4096 = _
        omega
      rw [hstop]
      exact Or.inl ⟨rfl, h.mapsPages hk hpa (by show _ ≤ 274877906944; omega)⟩
    · refine Or.inr ⟨rfl, (va / 4096 + k) * 4096, ?_, ?_⟩
      · rw [hdown]
        omega
      · exact h.mapsPages hk hpa (by show _ ≤ 274877906944; omega)
  · intro va npages ha hlt hleaf
    have ha : va % 4096 = 0 := ha
    have hlt' : va + npages * 4096 ≤ 274877906944 := hlt
    rw [uvmunmap_pages ha (by omega)]
    have hlt'' : va + npages * 4096 ≤ MAXVA := hlt
    refine unmapLoop_keep_total h.tree h.add ha hlt'' fun v hv hv' => ?_
    have hv4 : va ≤ v * 4096 ∧ v * 4096 < va + npages * 4096 := by omega
    rw [← hpage v (by show _ < 274877906944; omega)]
    exact hleaf _ hv4.1 hv4.2
  · intro va npages s' hlt hu x
    obtain ⟨ha, hu⟩ := uvmunmap_ok hu hlt
    by_cases hx : x < MAXVA
    · rw [h.translation hx, (h.unmapLoop ha hu).translation hx]
      refine if_congr ?_ rfl rfl
      show va / 4096 ≤ x / 4096 ∧ x / 4096 < va / 4096 + npages ↔ va ≤ x ∧ x < va + npages * 4096
      omega
    · rw [translation_top (not_lt.mp hx), translation_top (not_lt.mp hx), ite_self]
  · intro hV
    obtain ⟨s', hs', hfree⟩ := h.freewalk fun v _ => by
      rcases lt_or_ge (v * 4096) MAXVA with hv | hv
      · rw [← hpage v hv]
        exact hV _
      · exact h.top v hv
    exact ⟨s', _, hs', hfree, hnd, fun t => Radix.mem_nodes_iff⟩

/-- **Every page table built from an empty root is a flat map.** -/
theorem table_flatMap {s₀ : Phys} (h₀ : Alloc s₀ F) (hc : uvmcreate s₀ = (some r, s₁))
    (hrun : Runs.Steps (TableOp.step r) (fun _ _ => True) s₁ s) : FlatMap r s := by
  obtain ⟨lf, h⟩ := table_run h₀ hc hrun
  exact h.flatMap

section

omit [Image]

/-- The last page before `PHYSTOP` is the first that `kalloc` returns. -/
theorem smallPhys_uvmcreate : ((uvmcreate smallPhys).1 == some (PHYSTOP - PGSIZE)) = true := by
  decide +kernel

/-- Two pages are mapped by a range that is not page-aligned, and the second is unmapped. -/
theorem smallPhys_run : (Runs.exec (@TableOp.step smallImage (PHYSTOP - PGSIZE)) (fun _ _ => True)
    (uvmcreate smallPhys).2 [.walk 0x5000, .mappages 0x1800 0x1000 KERNBASE PTE_R, .uvmunmap 0x2000 1]).any
      (fun s => decide ((translation (PHYSTOP - PGSIZE) 0x1000 s).has PTE_V = true)) = true := by
  decide +kernel

theorem table_flatMap_small : ∃ r s₁ s, uvmcreate smallPhys = (some r, s₁) ∧
    (translation r 0x1000 s).has PTE_V = true ∧ @FlatMap smallImage r s := by
  have hc : uvmcreate smallPhys = (some (PHYSTOP - PGSIZE), (uvmcreate smallPhys).2) :=
    Prod.ext (beq_iff_eq.mp smallPhys_uvmcreate) rfl
  obtain ⟨s, hrun, hV⟩ := Runs.Steps.of_any _ smallPhys_run
  exact ⟨_, _, s, hc, hV, @table_flatMap smallImage _ _ _ _ _ smallPhys_alloc hc hrun⟩

end

end Xv6
