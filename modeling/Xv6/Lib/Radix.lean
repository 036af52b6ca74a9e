import Mathlib.Algebra.BigOperators.Group.Finset.Basic
import Mathlib.Algebra.BigOperators.Intervals
import Mathlib.Algebra.Order.BigOperators.Group.Finset
import Mathlib.Algebra.Order.Group.Multiset
import Mathlib.Data.Finset.Card
import Mathlib.Tactic.Ring

/-!
# Radix — radix trees stored in a heap

Nodes of type `N` live in a heap that is read through `g : N → ℕ → E` (node, index, entry); an entry
is a link to a child when `next` says so.  A tree of height `l` maps the keys below
`fan ^ (l + 1)` to entries of its level-`0` nodes.

* `nodes g l q`: the nodes of the tree of height `l` at `q`, with multiplicity: they are pairwise
  different exactly when no node is reached by two index paths.
* `slot? g l q v`: the level-`0` node on the path of key `v`; `lookup` the entry stored there.
* `nodes_congr`: a tree depends on its own nodes only.
* `nodes_split`, `others_congr`, `slot_graft`: replacing the child at one index.
* `lookup_set`: writing one level-`0` entry changes one key, in a tree without shared nodes.
* `Inner P`: the entries above level `0` that are links satisfy `P`.
* `follow g q path`: the node that a list of indices leads to; `follow_inj`: in a tree without shared
  nodes different lists lead to different nodes.
-/

namespace Radix

variable {N E : Type*} (next : E → Option N) (fan : ℕ)

/-- The nodes of the tree of height `l` at `q`. -/
def nodes (g : N → ℕ → E) : ℕ → N → Multiset N
  | 0, q => {q}
  | l + 1, q => q ::ₘ ∑ i ∈ Finset.range fan,
      match next (g q i) with
      | some c => nodes g l c
      | none => 0

/-- The index of key `v` in a node of level `l`. -/
def index (l v : ℕ) : ℕ := v / fan ^ l % fan

/-- The level-`0` node on the path of key `v`. -/
def slot? (g : N → ℕ → E) : ℕ → N → ℕ → Option N
  | 0, q, _ => some q
  | l + 1, q, v =>
    match next (g q (index fan (l + 1) v)) with
    | some c => slot? g l c v
    | none => none

/-- The entry of key `v`, `z` where the path stops early. -/
def lookup (g : N → ℕ → E) (z : E) (l : ℕ) (q : N) (v : ℕ) : E :=
  match slot? next fan g l q v with
  | some t => g t (index fan 0 v)
  | none => z

/-- The nodes below an entry of a node of level `l + 1`. -/
def sub (g : N → ℕ → E) (l : ℕ) (e : E) : Multiset N :=
  match next e with
  | some c => nodes next fan g l c
  | none => 0

variable {next fan} {g g' : N → ℕ → E} {l i k v w : ℕ} {q c t n : N} {e z : E}

theorem nodes_zero : nodes next fan g 0 q = {q} := rfl

theorem nodes_succ : nodes next fan g (l + 1) q =
    q ::ₘ ∑ i ∈ Finset.range fan, sub next fan g l (g q i) := rfl

-- a client's fan-out is a large literal, which no unifier should count through
attribute [irreducible] nodes

theorem sub_some (h : next e = some c) : sub next fan g l e = nodes next fan g l c := by
  simp [sub, h]

theorem sub_none (h : next e = none) : sub next fan g l e = 0 := by simp [sub, h]

theorem slot_succ (h : next (g q (index fan (l + 1) v)) = some c) :
    slot? next fan g (l + 1) q v = slot? next fan g l c v := by simp [slot?, h]

theorem slot_succ_none (h : next (g q (index fan (l + 1) v)) = none) :
    slot? next fan g (l + 1) q v = none := by simp [slot?, h]

theorem lookup_of_slot (h : slot? next fan g l q v = some t) :
    lookup next fan g z l q v = g t (index fan 0 v) := by simp [lookup, h]

theorem lookup_of_none (h : slot? next fan g l q v = none) :
    lookup next fan g z l q v = z := by simp [lookup, h]

theorem root_mem : q ∈ nodes next fan g l q := by
  cases l with
  | zero => simp [nodes_zero]
  | succ l => rw [nodes_succ]; exact Multiset.mem_cons_self _ _

theorem index_lt (h : 0 < fan) : index fan l v < fan := Nat.mod_lt _ h

/-! ## Sums of multisets over an index range -/

section Sums

variable {f f' : ℕ → Multiset N} {b : ℕ}

theorem sum_split (hi : i < b) :
    ∑ j ∈ Finset.range b, f j = f i + ∑ j ∈ (Finset.range b).erase i, f j :=
  (Finset.add_sum_erase _ f (Finset.mem_range.mpr hi)).symm

theorem le_sum (hi : i < b) : f i ≤ ∑ j ∈ Finset.range b, f j := by
  rw [sum_split hi]; exact Multiset.le_add_right _ _

/-- Two summands of a duplicate-free sum have no element in common. -/
theorem sum_disjoint (h : (∑ j ∈ Finset.range b, f j).Nodup) (hi : i < b) (hk : k < b)
    (hne : i ≠ k) : Disjoint (f i) (f k) := by
  rw [sum_split hi, Multiset.nodup_add] at h
  refine Disjoint.mono_right (c := ∑ j ∈ (Finset.range b).erase i, f j) ?_ h.2.2
  rw [← Finset.add_sum_erase _ f (Finset.mem_erase.mpr ⟨hne.symm, Finset.mem_range.mpr hk⟩)]
  exact Multiset.le_add_right _ _

theorem mem_sum_range {x : N} : x ∈ ∑ j ∈ Finset.range b, f j ↔ ∃ j < b, x ∈ f j := by
  simp [Multiset.mem_sum]

end Sums

/-! ## A tree depends on its own nodes only -/

theorem mem_nodes_of_child (hi : i < fan) (hc : next (g q i) = some c)
    (ht : t ∈ nodes next fan g l c) : t ∈ nodes next fan g (l + 1) q := by
  rw [nodes_succ]
  refine Multiset.mem_cons_of_mem (mem_sum_range.mpr ⟨i, hi, ?_⟩)
  rwa [sub_some hc]

theorem nodes_congr (h : ∀ t ∈ nodes next fan g l q, ∀ i < fan, g' t i = g t i) :
    nodes next fan g' l q = nodes next fan g l q := by
  induction l generalizing q with
  | zero => rw [nodes_zero, nodes_zero]
  | succ l ih =>
    rw [nodes_succ, nodes_succ]
    congr 1
    refine Finset.sum_congr rfl fun i hi => ?_
    have hi := Finset.mem_range.mp hi
    rw [h q root_mem i hi]
    cases hc : next (g q i) with
    | none => rw [sub_none hc, sub_none hc]
    | some c =>
      rw [sub_some hc, sub_some hc]
      exact ih fun t ht => h t (mem_nodes_of_child hi hc ht)

theorem slot_congr (hf : 0 < fan) (h : ∀ t ∈ nodes next fan g l q, ∀ i < fan, g' t i = g t i) :
    slot? next fan g' l q v = slot? next fan g l q v := by
  induction l generalizing q with
  | zero => rfl
  | succ l ih =>
    have hq := h q root_mem _ (index_lt (l := l + 1) (v := v) hf)
    cases hc : next (g q (index fan (l + 1) v)) with
    | none => rw [slot_succ_none hc, slot_succ_none (hq ▸ hc)]
    | some c =>
      rw [slot_succ hc, slot_succ (hq ▸ hc)]
      exact ih fun t ht => h t (mem_nodes_of_child (index_lt hf) hc ht)

theorem slot_mem (hf : 0 < fan) (h : slot? next fan g l q v = some t) :
    t ∈ nodes next fan g l q := by
  induction l generalizing q with
  | zero => simp only [slot?, Option.some.injEq] at h; simp [nodes_zero, h]
  | succ l ih =>
    cases hc : next (g q (index fan (l + 1) v)) with
    | none => rw [slot_succ_none hc] at h; cases h
    | some c =>
      rw [slot_succ hc] at h
      exact mem_nodes_of_child (index_lt hf) hc (ih h)

/-- A path goes through more nodes than the tree's height. -/
theorem lt_card_nodes (hf : 0 < fan) (h : slot? next fan g l q v = some t) :
    l < (nodes next fan g l q).card := by
  induction l generalizing q with
  | zero => simp [nodes_zero]
  | succ l ih =>
    cases hc : next (g q (index fan (l + 1) v)) with
    | none => rw [slot_succ_none hc] at h; cases h
    | some c =>
      rw [slot_succ hc] at h
      have hle := Multiset.card_le_card
        (le_sum (f := fun i => sub next fan g l (g q i)) (index_lt (l := l + 1) (v := v) hf))
      rw [nodes_succ, Multiset.card_cons]
      simp only [sub_some hc] at hle
      have := ih h
      omega

theorem lookup_congr (hf : 0 < fan)
    (h : ∀ t ∈ nodes next fan g l q, ∀ i < fan, g' t i = g t i) :
    lookup next fan g' z l q v = lookup next fan g z l q v := by
  have hs := slot_congr (v := v) hf h
  cases ht : slot? next fan g l q v with
  | none => rw [lookup_of_none ht, lookup_of_none (hs.trans ht)]
  | some t =>
    rw [lookup_of_slot ht, lookup_of_slot (hs.trans ht)]
    exact h t (slot_mem hf ht) _ (index_lt hf)

/-- A node without children. -/
theorem nodes_of_no_child (h : ∀ i < fan, next (g q i) = none) : nodes next fan g l q = {q} := by
  cases l with
  | zero => exact nodes_zero
  | succ l =>
    have h0 : ∑ i ∈ Finset.range fan, sub next fan g l (g q i) = 0 :=
      Finset.sum_eq_zero fun i hi => sub_none (h i (Finset.mem_range.mp hi))
    rw [nodes_succ, h0]
    rfl

/-! ## Subtrees -/

theorem nodup_child (h : (nodes next fan g (l + 1) q).Nodup) (hi : i < fan)
    (hc : next (g q i) = some c) :
    (nodes next fan g l c).Nodup ∧ q ∉ nodes next fan g l c := by
  rw [nodes_succ, Multiset.nodup_cons] at h
  have hle : nodes next fan g l c ≤ ∑ j ∈ Finset.range fan, sub next fan g l (g q j) := by
    have := le_sum (f := fun j => sub next fan g l (g q j)) hi
    simpa only [sub_some hc] using this
  exact ⟨Multiset.nodup_of_le hle h.2, fun hq => h.1 (Multiset.mem_of_le hle hq)⟩

theorem sub_disjoint (h : (nodes next fan g (l + 1) q).Nodup) (hi : i < fan) (hk : k < fan)
    (hne : i ≠ k) : Disjoint (sub next fan g l (g q i)) (sub next fan g l (g q k)) := by
  rw [nodes_succ, Multiset.nodup_cons] at h
  exact sum_disjoint (f := fun j => sub next fan g l (g q j)) h.2 hi hk hne

theorem root_not_mem_sub (h : (nodes next fan g (l + 1) q).Nodup) (hi : i < fan) :
    q ∉ sub next fan g l (g q i) := by
  rw [nodes_succ, Multiset.nodup_cons] at h
  exact fun hq => h.1 (mem_sum_range.mpr ⟨i, hi, hq⟩)

/-- The nodes outside the subtree at index `i` of the root. -/
def others (next : E → Option N) (fan : ℕ) (g : N → ℕ → E) (l : ℕ) (q : N) (i : ℕ) : Multiset N :=
  q ::ₘ ∑ j ∈ (Finset.range fan).erase i, sub next fan g l (g q j)

theorem nodes_split (hi : i < fan) :
    nodes next fan g (l + 1) q = sub next fan g l (g q i) + others next fan g l q i := by
  rw [nodes_succ, sum_split (f := fun j => sub next fan g l (g q j)) hi, others,
    Multiset.add_cons]

theorem root_mem_others : q ∈ others next fan g l q i := Multiset.mem_cons_self _ _

theorem mem_others {j : ℕ} (hj : j < fan) (hne : j ≠ i) (ht : t ∈ sub next fan g l (g q j)) :
    t ∈ others next fan g l q i := by
  refine Multiset.mem_cons_of_mem (Multiset.mem_sum.mpr ⟨j, ?_, ht⟩)
  exact Finset.mem_erase.mpr ⟨hne, Finset.mem_range.mpr hj⟩

theorem others_congr (hq : ∀ j < fan, j ≠ i → g' q j = g q j)
    (hsib : ∀ j < fan, j ≠ i → ∀ t ∈ sub next fan g l (g q j), ∀ k < fan, g' t k = g t k) :
    others next fan g' l q i = others next fan g l q i := by
  unfold others
  congr 1
  refine Finset.sum_congr rfl fun j hj => ?_
  obtain ⟨hne, hj⟩ := Finset.mem_erase.mp hj
  have hj := Finset.mem_range.mp hj
  rw [hq j hj hne]
  cases hn : next (g q j) with
  | none => rw [sub_none hn, sub_none hn]
  | some c' =>
    have hs := hsib j hj hne
    rw [sub_some hn] at hs
    rw [sub_some hn, sub_some hn]
    exact nodes_congr hs

attribute [irreducible] others

/-- **Grafting**: when the entry at index `i` of the root becomes a link to `c` and the other
subtrees stay, the keys of index `i` are looked up below `c`. -/
theorem slot_graft (hf : 0 < fan) (hq : ∀ j < fan, j ≠ i → g' q j = g q j)
    (hc : next (g' q i) = some c)
    (hsib : ∀ j < fan, j ≠ i → ∀ t ∈ sub next fan g l (g q j), ∀ k < fan, g' t k = g t k) :
    slot? next fan g' (l + 1) q v =
      if index fan (l + 1) v = i then slot? next fan g' l c v
      else slot? next fan g (l + 1) q v := by
  by_cases h : index fan (l + 1) v = i
  · rw [if_pos h, slot_succ (h ▸ hc)]
  · rw [if_neg h]
    have hlt := index_lt (l := l + 1) (v := v) hf
    have hqv := hq _ hlt h
    cases hn : next (g q (index fan (l + 1) v)) with
    | none => rw [slot_succ_none hn, slot_succ_none (hqv ▸ hn)]
    | some c' =>
      have hs := hsib _ hlt h
      rw [sub_some hn] at hs
      rw [slot_succ hn, slot_succ (hqv ▸ hn)]
      exact slot_congr hf hs

/-- The nodes below the last `n` entries of `q`. -/
def rest (next : E → Option N) (fan : ℕ) (g : N → ℕ → E) (l : ℕ) (q : N) : ℕ → Multiset N
  | 0 => 0
  | n + 1 => sub next fan g l (g q (fan - 1 - n)) + rest next fan g l q n

theorem rest_eq_sum (b : ℕ) : rest next fan g l q b =
    ∑ i ∈ Finset.range b, sub next fan g l (g q (fan - 1 - i)) := by
  induction b with
  | zero => rfl
  | succ b ih => rw [rest, ih, Finset.sum_range_succ, add_comm]

theorem nodes_rest : nodes next fan g (l + 1) q = q ::ₘ rest next fan g l q fan := by
  rw [nodes_succ, rest_eq_sum, Finset.sum_range_reflect (fun i => sub next fan g l (g q i))]

theorem rest_congr {b : ℕ} (hb : b ≤ fan) (hq : ∀ i < fan, fan - b ≤ i → g' q i = g q i)
    (ht : ∀ t ∈ rest next fan g l q b, ∀ k < fan, g' t k = g t k) :
    rest next fan g' l q b = rest next fan g l q b := by
  induction b with
  | zero => rfl
  | succ b ih =>
    have hsub : sub next fan g' l (g q (fan - 1 - b)) = sub next fan g l (g q (fan - 1 - b)) := by
      cases hc : next (g q (fan - 1 - b)) with
      | none => rw [sub_none hc, sub_none hc]
      | some c =>
        rw [sub_some hc, sub_some hc]
        refine nodes_congr fun t htc => ht t ?_
        rw [rest, sub_some hc]
        exact Multiset.mem_add.mpr (Or.inl htc)
    rw [rest, rest, hq (fan - 1 - b) (by omega) (by omega), hsub,
      ih (by omega) (fun i hi hle => hq i hi (by omega))
        (fun t h => ht t (Multiset.mem_add.mpr (Or.inr h)))]

theorem rest_succ {b : ℕ} : rest next fan g l q (b + 1) =
    sub next fan g l (g q (fan - 1 - b)) + rest next fan g l q b := rfl

theorem rest_zero : rest next fan g l q 0 = 0 := rfl

theorem mem_rest {b : ℕ} (hb : b ≤ fan) (hi : i < fan) (hle : fan - b ≤ i)
    (hc : next (g q i) = some c) (ht : t ∈ nodes next fan g l c) : t ∈ rest next fan g l q b := by
  rw [rest_eq_sum]
  refine mem_sum_range.mpr ⟨fan - 1 - i, by omega, ?_⟩
  rw [show fan - 1 - (fan - 1 - i) = i by omega, sub_some hc]
  exact ht

attribute [irreducible] rest

/-! ## Keys -/

theorem index_congr (h : v % fan ^ (l + 1) = w % fan ^ (l + 1)) :
    index fan l v = index fan l w := by
  have key : ∀ x, index fan l x = x % fan ^ (l + 1) / fan ^ l := fun x => by
    rw [pow_succ, Nat.mod_mul_right_div_self]; rfl
  rw [key, key, h]

/-- Only the key modulo the number of keys counts. -/
theorem lookup_mod_congr (h : v % fan ^ (l + 1) = w % fan ^ (l + 1)) :
    lookup next fan g z l q v = lookup next fan g z l q w := by
  have h0 : ∀ {j : ℕ}, j ≤ l → v % fan ^ (j + 1) = w % fan ^ (j + 1) := fun {j} hj => by
    have hd : fan ^ (j + 1) ∣ fan ^ (l + 1) := pow_dvd_pow fan (by omega)
    rw [← Nat.mod_mod_of_dvd v hd, h, Nat.mod_mod_of_dvd w hd]
  have hslot : slot? next fan g l q v = slot? next fan g l q w := by
    clear h
    induction l generalizing q with
    | zero => rfl
    | succ l ih =>
      have hi := index_congr (h0 le_rfl)
      cases hc : next (g q (index fan (l + 1) v)) with
      | none => rw [slot_succ_none hc, slot_succ_none (hi ▸ hc)]
      | some c =>
        rw [slot_succ hc, slot_succ (hi ▸ hc)]
        exact ih fun hj => h0 (by omega)
  cases ht : slot? next fan g l q v with
  | none => rw [lookup_of_none ht, lookup_of_none (hslot ▸ ht)]
  | some t =>
    rw [lookup_of_slot ht, lookup_of_slot (hslot ▸ ht), index_congr (h0 (Nat.zero_le l))]

/-- Every key of a child is a key of its parent. -/
theorem lookup_child (hf : 0 < fan) (hi : i < fan) (hc : next (g q i) = some c) (v : ℕ) :
    ∃ w, lookup next fan g z (l + 1) q w = lookup next fan g z l c v := by
  have hpos : 0 < fan ^ (l + 1) := Nat.pow_pos hf
  have hidx : index fan (l + 1) (v % fan ^ (l + 1) + fan ^ (l + 1) * i) = i := by
    unfold index
    rw [Nat.add_mul_div_left _ _ hpos, Nat.div_eq_of_lt (Nat.mod_lt _ hpos), zero_add,
      Nat.mod_eq_of_lt hi]
  refine ⟨v % fan ^ (l + 1) + fan ^ (l + 1) * i, ?_⟩
  have hslot : slot? next fan g (l + 1) q (v % fan ^ (l + 1) + fan ^ (l + 1) * i) =
      slot? next fan g l c (v % fan ^ (l + 1) + fan ^ (l + 1) * i) :=
    slot_succ (by rw [hidx]; exact hc)
  have hmod : (v % fan ^ (l + 1) + fan ^ (l + 1) * i) % fan ^ (l + 1) = v % fan ^ (l + 1) := by
    rw [Nat.add_mul_mod_self_left, Nat.mod_mod]
  rw [← lookup_mod_congr (q := c) (z := z) hmod]
  simp only [lookup, hslot]

theorem mod_eq_of_index {a b m : ℕ} (h : a / m % fan = b / m % fan) (h' : a % m = b % m) :
    a % (m * fan) = b % (m * fan) := by
  rw [Nat.mod_mul, Nat.mod_mul, h, h']

/-- In a tree without shared nodes, keys with the same level-`0` node agree above level `0`. -/
theorem slot_inj (hf : 0 < fan) (hnd : (nodes next fan g l q).Nodup)
    (hv : slot? next fan g l q v = some t) (hw : slot? next fan g l q w = some t) :
    v / fan % fan ^ l = w / fan % fan ^ l := by
  induction l generalizing q with
  | zero => simp [Nat.mod_one]
  | succ l ih =>
    have hlv := index_lt (l := l + 1) (v := v) hf
    have hlw := index_lt (l := l + 1) (v := w) hf
    cases hcv : next (g q (index fan (l + 1) v)) with
    | none => rw [slot_succ_none hcv] at hv; cases hv
    | some c =>
      cases hcw : next (g q (index fan (l + 1) w)) with
      | none => rw [slot_succ_none hcw] at hw; cases hw
      | some c' =>
        rw [slot_succ hcv] at hv
        rw [slot_succ hcw] at hw
        have hi : index fan (l + 1) v = index fan (l + 1) w := by
          by_contra hne
          have hd := sub_disjoint hnd hlv hlw hne
          rw [sub_some hcv, sub_some hcw] at hd
          exact Multiset.disjoint_left.mp hd (slot_mem hf hv) (slot_mem hf hw)
        have hcc : c = c' := by rw [hi, hcw] at hcv; exact (Option.some.inj hcv).symm
        subst hcc
        have hrec := ih (nodup_child hnd hlv hcv).1 hv hw
        unfold index at hi
        rw [pow_succ' fan l, ← Nat.div_div_eq_div_mul, ← Nat.div_div_eq_div_mul] at hi
        rw [pow_succ]
        exact mod_eq_of_index hi hrec

/-- A tree without shared nodes sends different keys to different places. -/
theorem key_eq (hf : 0 < fan) (hnd : (nodes next fan g l q).Nodup)
    (hv : slot? next fan g l q v = some t) (hw : slot? next fan g l q w = some t)
    (hvw : index fan 0 v = index fan 0 w) (hv' : v < fan ^ (l + 1)) (hw' : w < fan ^ (l + 1)) :
    v = w := by
  have h := slot_inj hf hnd hv hw
  have hb : ∀ x, x < fan ^ (l + 1) → x / fan < fan ^ l := fun x hx =>
    Nat.div_lt_of_lt_mul (by rwa [pow_succ'] at hx)
  rw [Nat.mod_eq_of_lt (hb v hv'), Nat.mod_eq_of_lt (hb w hw')] at h
  simp only [index, pow_zero, Nat.div_one] at hvw
  rw [← Nat.div_add_mod v fan, ← Nat.div_add_mod w fan, h, hvw]

/-- **Writing one entry** of a level-`0` node leaves the shape of the tree. -/
theorem nodes_set (hf : 0 < fan) (hnd : (nodes next fan g l q).Nodup)
    (hs : slot? next fan g l q v = some t)
    (hg : ∀ n ∈ nodes next fan g l q, ∀ i < fan, ¬ (n = t ∧ i = index fan 0 v) → g' n i = g n i) :
    nodes next fan g' l q = nodes next fan g l q ∧
      ∀ w, slot? next fan g' l q w = slot? next fan g l q w := by
  induction l generalizing q with
  | zero => exact ⟨by rw [nodes_zero, nodes_zero], fun _ => rfl⟩
  | succ l ih =>
    have hlv := index_lt (l := l + 1) (v := v) hf
    cases hc : next (g q (index fan (l + 1) v)) with
    | none => rw [slot_succ_none hc] at hs; cases hs
    | some c =>
      rw [slot_succ hc] at hs
      obtain ⟨hndc, hqc⟩ := nodup_child hnd hlv hc
      have htc := slot_mem hf hs
      have hqt : q ≠ t := fun h => hqc (h ▸ htc)
      have hq : ∀ j < fan, g' q j = g q j := fun j hj =>
        hg q root_mem j hj (fun h => hqt h.1)
      have hsib : ∀ j < fan, j ≠ index fan (l + 1) v →
          ∀ n ∈ sub next fan g l (g q j), ∀ k < fan, g' n k = g n k := by
        intro j hj hne n hn k hk
        have hd := sub_disjoint hnd hj hlv hne
        rw [sub_some hc] at hd
        refine hg n ?_ k hk (fun h => Multiset.disjoint_left.mp hd hn (h.1 ▸ htc))
        rw [nodes_succ]
        exact Multiset.mem_cons_of_mem (mem_sum_range.mpr ⟨j, hj, hn⟩)
      obtain ⟨ih1, ih2⟩ := ih hndc hs
        (fun n hn => hg n (mem_nodes_of_child hlv hc hn))
      have hc' : next (g' q (index fan (l + 1) v)) = some c := by rw [hq _ hlv]; exact hc
      refine ⟨?_, fun w => ?_⟩
      · rw [nodes_split hlv, nodes_split hlv, others_congr (fun j hj _ => hq j hj) hsib,
          sub_some hc', sub_some hc, ih1]
      · rw [slot_graft hf (fun j hj _ => hq j hj) hc' hsib]
        split_ifs with h
        · rw [ih2, slot_succ (h ▸ hc)]
        · rfl

theorem lookup_set (hf : 0 < fan) (hnd : (nodes next fan g l q).Nodup)
    (hs : slot? next fan g l q v = some t)
    (hg : ∀ n ∈ nodes next fan g l q, ∀ i < fan, ¬ (n = t ∧ i = index fan 0 v) → g' n i = g n i)
    (hv : v < fan ^ (l + 1)) (hw : w < fan ^ (l + 1)) :
    lookup next fan g' z l q w =
      if w = v then g' t (index fan 0 v) else lookup next fan g z l q w := by
  obtain ⟨-, hslot⟩ := nodes_set hf hnd hs hg
  by_cases h : w = v
  · subst h; rw [if_pos rfl, lookup_of_slot ((hslot w).trans hs)]
  · rw [if_neg h]
    cases hsw : slot? next fan g l q w with
    | none => rw [lookup_of_none hsw, lookup_of_none ((hslot w).trans hsw)]
    | some t' =>
      rw [lookup_of_slot hsw, lookup_of_slot ((hslot w).trans hsw)]
      refine hg t' (slot_mem hf hsw) _ (index_lt hf) (fun h' => h ?_)
      exact key_eq hf hnd (h'.1 ▸ hsw) hs h'.2 hw hv

/-! ## The entries above level `0` -/

/-- All entries above level `0` that have a child satisfy `P`. -/
def Inner (P : E → Prop) (next : E → Option N) (fan : ℕ) (g : N → ℕ → E) : ℕ → N → Prop
  | 0, _ => True
  | l + 1, q => ∀ i < fan, ∀ c, next (g q i) = some c → P (g q i) ∧ Inner P next fan g l c

section Inner

variable {P : E → Prop}

theorem inner_of_no_child (h : ∀ i < fan, next (g q i) = none) : Inner P next fan g l q := by
  cases l with
  | zero => trivial
  | succ l =>
    intro i hi c hc
    rw [h i hi] at hc
    cases hc

theorem inner_congr (h : ∀ t ∈ nodes next fan g l q, ∀ i < fan, g' t i = g t i)
    (hl : Inner P next fan g l q) : Inner P next fan g' l q := by
  induction l generalizing q with
  | zero => trivial
  | succ l ih =>
    intro i hi c hc
    rw [h q root_mem i hi] at hc ⊢
    obtain ⟨hP, hc'⟩ := hl i hi c hc
    exact ⟨hP, ih (fun t ht => h t (mem_nodes_of_child hi hc ht)) hc'⟩

/-- A change below index `i` of the root. -/
theorem inner_graft (hq : ∀ j < fan, j ≠ i → g' q j = g q j)
    (hsib : ∀ j < fan, j ≠ i → ∀ t ∈ sub next fan g l (g q j), ∀ k < fan, g' t k = g t k)
    (hl : Inner P next fan g (l + 1) q)
    (hc : ∀ c, next (g' q i) = some c → P (g' q i) ∧ Inner P next fan g' l c) :
    Inner P next fan g' (l + 1) q := by
  intro j hj d hd
  by_cases hji : j = i
  · subst hji
    exact hc d hd
  · rw [hq j hj hji] at hd ⊢
    obtain ⟨hP, hd'⟩ := hl j hj d hd
    have hs := hsib j hj hji
    rw [sub_some hd] at hs
    exact ⟨hP, inner_congr hs hd'⟩

/-- Writing one entry of a level-`0` node leaves the entries above. -/
theorem inner_set (hf : 0 < fan) (hnd : (nodes next fan g l q).Nodup)
    (hs : slot? next fan g l q v = some t)
    (hg : ∀ n ∈ nodes next fan g l q, ∀ i < fan, ¬ (n = t ∧ i = index fan 0 v) → g' n i = g n i)
    (hl : Inner P next fan g l q) : Inner P next fan g' l q := by
  induction l generalizing q with
  | zero => trivial
  | succ l ih =>
    have hlv := index_lt (l := l + 1) (v := v) hf
    cases hc : next (g q (index fan (l + 1) v)) with
    | none => rw [slot_succ_none hc] at hs; cases hs
    | some c =>
      rw [slot_succ hc] at hs
      obtain ⟨hndc, hqc⟩ := nodup_child hnd hlv hc
      have htc := slot_mem hf hs
      have hqt : q ≠ t := fun h => hqc (h ▸ htc)
      have hq : ∀ j < fan, g' q j = g q j := fun j hj => hg q root_mem j hj fun h => hqt h.1
      refine inner_graft (i := index fan (l + 1) v) (fun j hj _ => hq j hj)
        (fun j hj hne n hn k hk => ?_) hl fun d hd => ?_
      · have hd := sub_disjoint hnd hj hlv hne
        rw [sub_some hc] at hd
        refine hg n ?_ k hk fun h => Multiset.disjoint_left.mp hd hn (h.1 ▸ htc)
        rw [nodes_succ]
        exact Multiset.mem_cons_of_mem (mem_sum_range.mpr ⟨j, hj, hn⟩)
      · rw [hq _ hlv] at hd ⊢
        rw [hc] at hd
        cases hd
        obtain ⟨hP, hl'⟩ := hl _ hlv c hc
        exact ⟨hP, ih hndc hs (fun n hn => hg n (mem_nodes_of_child hlv hc hn)) hl'⟩

end Inner

/-- There are at most `fan` keys for each node. -/
theorem card_keys_le [DecidableEq N] (hf : 0 < fan) (hnd : (nodes next fan g l q).Nodup)
    (S : Finset ℕ) (hS : ∀ v ∈ S, v < fan ^ (l + 1) ∧ (slot? next fan g l q v).isSome) :
    S.card ≤ (nodes next fan g l q).card * fan := by
  have hcard : ((nodes next fan g l q).toFinset ×ˢ Finset.range fan).card =
      (nodes next fan g l q).card * fan := by
    rw [Finset.card_product, Finset.card_range, Multiset.toFinset_card_of_nodup hnd]
  rw [← hcard]
  refine Finset.card_le_card_of_injOn
    (fun v => ((slot? next fan g l q v).getD q, index fan 0 v)) (fun v hv => ?_) ?_
  · obtain ⟨t, ht⟩ := Option.isSome_iff_exists.mp (hS v hv).2
    simp only [ht, Option.getD_some, Finset.coe_product, Set.mem_prod, Finset.mem_coe,
      Multiset.mem_toFinset, Finset.mem_range]
    exact ⟨slot_mem hf ht, index_lt hf⟩
  · intro v hv w hw h
    obtain ⟨t, ht⟩ := Option.isSome_iff_exists.mp (hS v hv).2
    obtain ⟨t', ht'⟩ := Option.isSome_iff_exists.mp (hS w hw).2
    simp only [ht, ht', Option.getD_some, Prod.mk.injEq] at h
    exact key_eq hf hnd ht (h.1 ▸ ht') h.2 (hS v hv).1 (hS w hw).1

/-! ## Index paths -/

/-- The node that the indices `path` lead to. -/
def follow (next : E → Option N) (g : N → ℕ → E) : N → List ℕ → Option N
  | q, [] => some q
  | q, i :: path =>
    match next (g q i) with
    | some c => follow next g c path
    | none => none

/-- A path in a tree of height `l`. -/
def IsPath (fan l : ℕ) (path : List ℕ) : Prop := path.length ≤ l ∧ ∀ i ∈ path, i < fan

section Paths

variable {path path' : List ℕ}

theorem follow_cons (h : next (g q i) = some c) :
    follow next g q (i :: path) = follow next g c path := by simp [follow, h]

theorem follow_child (h : follow next g q (i :: path) = some t) :
    ∃ c, next (g q i) = some c ∧ follow next g c path = some t := by
  cases hc : next (g q i) with
  | none => simp [follow, hc] at h
  | some c => exact ⟨c, rfl, follow_cons hc ▸ h⟩

theorem IsPath.tail (h : IsPath fan (l + 1) (i :: path)) : i < fan ∧ IsPath fan l path :=
  ⟨h.2 i List.mem_cons_self, Nat.le_of_succ_le_succ h.1,
    fun j hj => h.2 j (List.mem_cons_of_mem _ hj)⟩

/-- The nodes are what the paths lead to. -/
theorem mem_nodes_iff : t ∈ nodes next fan g l q ↔
    ∃ path, IsPath fan l path ∧ follow next g q path = some t := by
  induction l generalizing q with
  | zero =>
    rw [nodes_zero, Multiset.mem_singleton]
    constructor
    · rintro rfl
      exact ⟨[], ⟨le_rfl, fun i hi => absurd hi List.not_mem_nil⟩, rfl⟩
    · rintro ⟨path, hp, hf⟩
      rw [List.eq_nil_of_length_eq_zero (Nat.le_zero.mp hp.1)] at hf
      exact (Option.some.inj hf).symm
  | succ l ih =>
    rw [nodes_succ, Multiset.mem_cons, mem_sum_range]
    constructor
    · rintro (rfl | ⟨i, hi, ht⟩)
      · exact ⟨[], ⟨Nat.zero_le _, fun i hi => absurd hi List.not_mem_nil⟩, rfl⟩
      · cases hc : next (g q i) with
        | none =>
          rw [sub_none hc] at ht
          exact absurd ht (Multiset.notMem_zero t)
        | some c =>
          rw [sub_some hc] at ht
          obtain ⟨path, hp, hf⟩ := ih.mp ht
          refine ⟨i :: path, ⟨Nat.succ_le_succ hp.1, fun j hj => ?_⟩, (follow_cons hc).trans hf⟩
          rcases List.mem_cons.mp hj with rfl | hj
          · exact hi
          · exact hp.2 j hj
    · rintro ⟨path, hp, hf⟩
      cases path with
      | nil => exact Or.inl (Option.some.inj hf).symm
      | cons i path =>
        obtain ⟨hi, hp⟩ := hp.tail
        obtain ⟨c, hc, hf⟩ := follow_child hf
        exact Or.inr ⟨i, hi, by rw [sub_some hc]; exact ih.mpr ⟨path, hp, hf⟩⟩

/-- Below the root no path leads back to it. -/
theorem follow_cons_ne (hnd : (nodes next fan g (l + 1) q).Nodup)
    (hp : IsPath fan (l + 1) (i :: path)) : follow next g q (i :: path) ≠ some q := by
  intro h
  obtain ⟨hi, hp⟩ := hp.tail
  obtain ⟨c, hc, hf⟩ := follow_child h
  exact (nodup_child hnd hi hc).2 (mem_nodes_iff.mpr ⟨path, hp, hf⟩)

/-- **In a tree without shared nodes** no node is reached by two paths. -/
theorem follow_inj (hnd : (nodes next fan g l q).Nodup) (hp : IsPath fan l path)
    (hp' : IsPath fan l path') (h : follow next g q path = some t)
    (h' : follow next g q path' = some t) : path = path' := by
  induction l generalizing q path path' with
  | zero =>
    rw [List.eq_nil_of_length_eq_zero (Nat.le_zero.mp hp.1),
      List.eq_nil_of_length_eq_zero (Nat.le_zero.mp hp'.1)]
  | succ l ih =>
    cases path with
    | nil =>
      cases Option.some.inj h
      cases path' with
      | nil => rfl
      | cons j path' => exact absurd h' (follow_cons_ne hnd hp')
    | cons i path =>
      cases path' with
      | nil =>
        cases Option.some.inj h'
        exact absurd h (follow_cons_ne hnd hp)
      | cons j path' =>
        obtain ⟨hi, ht⟩ := hp.tail
        obtain ⟨hj, ht'⟩ := hp'.tail
        obtain ⟨c, hc, hf⟩ := follow_child h
        obtain ⟨d, hd, hf'⟩ := follow_child h'
        have hij : i = j := by
          by_contra hne
          have hdis := sub_disjoint hnd hi hj hne
          rw [sub_some hc, sub_some hd] at hdis
          exact Multiset.disjoint_left.mp hdis (mem_nodes_iff.mpr ⟨path, ht, hf⟩)
            (mem_nodes_iff.mpr ⟨path', ht', hf'⟩)
        subst hij
        cases Option.some.inj (hc.symm.trans hd)
        rw [ih (nodup_child hnd hi hc).1 ht ht' hf hf']

end Paths

end Radix
