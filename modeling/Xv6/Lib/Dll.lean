import Mathlib.Data.List.Basic
import Mathlib.Data.List.Nodup
import Mathlib.Data.Nat.Notation
import Mathlib.Logic.Function.Basic

/-!
# Dll — circular doubly linked lists with a sentinel

The node `none` is the sentinel, `some b` the element `b`.  `Around K l`: following `next` from the
sentinel visits exactly the elements of `l`, in this order and without repetition, and `prev` is the
way back.  `unlink` and `pushFront` are the usual pointer assignments; a `walk` along either pointer
finds what a search of the list finds.
-/

namespace Dll

variable {β : Type*}

structure Links (β : Type*) where
  next : Option β → Option β
  prev : Option β → Option β

namespace Links

/-- The sentinel alone. -/
def empty : Links β := { next := fun _ => none, prev := fun _ => none }

/-- The same links with the two directions exchanged. -/
def flip (K : Links β) : Links β := { next := K.prev, prev := K.next }

/-- `b->next->prev = b->prev; b->prev->next = b->next`. -/
def unlink [DecidableEq β] (K : Links β) (b : β) : Links β :=
  let K₁ : Links β :=
    { K with prev := Function.update K.prev (K.next (some b)) (K.prev (some b)) }
  { K₁ with next := Function.update K₁.next (K₁.prev (some b)) (K₁.next (some b)) }

/-- `b->next = head.next; b->prev = &head; head.next->prev = b; head.next = b`. -/
def pushFront [DecidableEq β] (K : Links β) (b : β) : Links β :=
  let K₁ : Links β :=
    { next := Function.update K.next (some b) (K.next none),
      prev := Function.update K.prev (some b) none }
  { next := Function.update K₁.next none (some b),
    prev := Function.update K₁.prev (K₁.next none) (some b) }

end Links

/-- From node `x` follow `f` to the first element that satisfies `p`, or to the sentinel; `none` if
neither is met within `n` nodes. -/
def walk (f : Option β → Option β) (p : β → Bool) : ℕ → Option β → Option (Option β)
  | 0, _ => none
  | _ + 1, none => some none
  | n + 1, some b => if p b then some (some b) else walk f p n (f (some b))

/-- `next` leads from `a` through `l` to `c`, and `prev` back. -/
def Path (K : Links β) : Option β → List β → Option β → Prop
  | a, [], c => K.next a = c ∧ K.prev c = a
  | a, x :: l, c => (K.next a = some x ∧ K.prev (some x) = a) ∧ Path K (some x) l c

/-- The circular list through the sentinel consists of the elements of `l`. -/
structure Around (K : Links β) (l : List β) : Prop where
  path : Path K none l none
  nodup : l.Nodup

variable {K K' : Links β} {a c : Option β} {b : β} {l l₁ l₂ : List β} {p : β → Bool} {n : ℕ}

namespace Path

/-- Only the `next` of the nodes before and the `prev` of the nodes after a link matter. -/
theorem congr (h : Path K a l c) (hn : K'.next a = K.next a)
    (hl : ∀ x ∈ l, K'.next (some x) = K.next (some x) ∧ K'.prev (some x) = K.prev (some x))
    (hp : K'.prev c = K.prev c) : Path K' a l c := by
  induction l generalizing a with
  | nil =>
    obtain ⟨h1, h2⟩ := h
    exact ⟨hn.trans h1, hp.trans h2⟩
  | cons x l ih =>
    obtain ⟨⟨h1, h2⟩, h⟩ := h
    obtain ⟨hxn, hxp⟩ := hl x List.mem_cons_self
    exact ⟨⟨hn.trans h1, hxp.trans h2⟩,
      ih h hxn fun y hy => hl y (List.mem_cons_of_mem x hy)⟩

theorem append_iff : Path K a (l₁ ++ b :: l₂) c ↔ Path K a l₁ (some b) ∧ Path K (some b) l₂ c := by
  induction l₁ generalizing a with
  | nil => exact Iff.rfl
  | cons x l₁ ih =>
    rw [List.cons_append, Path, Path, ih, ← and_assoc]

/-- Walking the other way. -/
theorem flip (h : Path K a l c) : Path K.flip c l.reverse a := by
  induction l generalizing a with
  | nil =>
    obtain ⟨h1, h2⟩ := h
    exact ⟨h2, h1⟩
  | cons x l ih =>
    obtain ⟨⟨h1, h2⟩, h⟩ := h
    rw [List.reverse_cons]
    exact append_iff.mpr ⟨ih h, h2, h1⟩

theorem next_mem (h : Path K a l c) : K.next a ∈ l.map some ++ [c] := by
  cases l with
  | nil => rw [h.1]; exact List.mem_singleton_self c
  | cons x l => rw [h.1.1]; exact List.mem_cons_self

theorem prev_mem (h : Path K a l c) : K.prev c ∈ l.map some ++ [a] := by
  have hm := h.flip.next_mem
  rwa [List.map_reverse, List.mem_append, List.mem_reverse, ← List.mem_append] at hm

end Path

/-- Searching along `next` finds what searching the list finds. -/
theorem Path.walk_next (h : Path K a l none) (hn : l.length < n) :
    walk K.next p n (K.next a) = some (l.find? p) := by
  induction l generalizing a n with
  | nil =>
    obtain ⟨m, rfl⟩ : ∃ m, n = m + 1 := ⟨n - 1, by omega⟩
    rw [h.1, walk, List.find?_nil]
  | cons x l ih =>
    obtain ⟨m, rfl⟩ : ∃ m, n = m + 1 := ⟨n - 1, by omega⟩
    rw [h.1.1, walk]
    by_cases hx : p x = true
    · rw [if_pos hx, List.find?_cons_of_pos hx]
    · rw [if_neg hx, List.find?_cons_of_neg hx]
      exact ih h.2 (Nat.succ_lt_succ_iff.mp hn)

namespace Around

theorem empty : Around (Links.empty : Links β) [] := ⟨⟨rfl, rfl⟩, List.nodup_nil⟩

theorem flip (h : Around K l) : Around K.flip l.reverse :=
  ⟨h.path.flip, List.nodup_reverse.mpr h.nodup⟩

/-- **The forward search.** -/
theorem walk_next (h : Around K l) (hn : l.length < n) :
    walk K.next p n (K.next none) = some (l.find? p) := h.path.walk_next hn

/-- **The backward search.** -/
theorem walk_prev (h : Around K l) (hn : l.length < n) :
    walk K.prev p n (K.prev none) = some (l.reverse.find? p) :=
  h.flip.walk_next (by rwa [List.length_reverse])

end Around

variable [DecidableEq β]

/-- What `unlink` writes, when the element is not its own successor. -/
theorem unlink_eq (hb : K.next (some b) ≠ some b) :
    K.unlink b = { next := Function.update K.next (K.prev (some b)) (K.next (some b)),
                   prev := Function.update K.prev (K.next (some b)) (K.prev (some b)) } := by
  have hprev : Function.update K.prev (K.next (some b)) (K.prev (some b)) (some b)
      = K.prev (some b) := Function.update_of_ne (Ne.symm hb) _ _
  simp only [Links.unlink, hprev]

/-- The links around an element are closed when it is taken out. -/
theorem Path.unlink (h : Path K a (l₁ ++ b :: l₂) c) (hnd : (l₁ ++ b :: l₂).Nodup)
    (ha : ∀ x ∈ l₁ ++ b :: l₂, a ≠ some x) (hc : ∀ x ∈ l₁ ++ b :: l₂, c ≠ some x) :
    Path (K.unlink b) a (l₁ ++ l₂) c := by
  have hnext : K.next (some b) ∈ l₂.map some ++ [c] := (append_iff.mp h).2.next_mem
  have hb : K.next (some b) ≠ some b := by
    intro he
    rw [he, List.mem_append, List.mem_map, List.mem_singleton] at hnext
    rcases hnext with ⟨x, hx, hxb⟩ | hcb
    · obtain rfl : x = b := Option.some.inj hxb
      exact (List.nodup_cons.mp (List.nodup_append.mp hnd).2.1).1 hx
    · exact hc b (List.mem_append_right l₁ List.mem_cons_self) hcb.symm
  rw [unlink_eq hb]
  induction l₁ generalizing a with
  | nil =>
    obtain ⟨⟨h1, h2⟩, h⟩ := h
    have hnd₂ := (List.nodup_cons.mp hnd).2
    rw [h2]
    cases l₂ with
    | nil =>
      rw [h.1]
      exact ⟨Function.update_self _ _ _, Function.update_self _ _ _⟩
    | cons y l₃ =>
      obtain ⟨⟨h3, h4⟩, h⟩ := h
      rw [h3]
      have hay : ∀ z ∈ y :: l₃, some z ≠ a := fun z hz => (ha z (List.mem_cons_of_mem b hz)).symm
      refine ⟨⟨Function.update_self _ _ _, Function.update_self _ _ _⟩, h.congr ?_ ?_ ?_⟩
      · exact Function.update_of_ne (hay y List.mem_cons_self) _ _
      · intro z hz
        have hzy : some z ≠ some y := by
          rintro ⟨rfl⟩
          exact (List.nodup_cons.mp hnd₂).1 hz
        exact ⟨Function.update_of_ne (hay z (List.mem_cons_of_mem y hz)) _ _,
          Function.update_of_ne hzy _ _⟩
      · exact Function.update_of_ne
          (hc y (List.mem_cons_of_mem b List.mem_cons_self)) _ _
  | cons x l₁ ih =>
    obtain ⟨⟨h1, h2⟩, h⟩ := h
    rw [List.cons_append, List.nodup_cons] at hnd
    have hprev : K.prev (some b) ∈ l₁.map some ++ [some x] := (append_iff.mp h).1.prev_mem
    have ha' : a ≠ K.prev (some b) := by
      intro he
      rw [← he, List.mem_append, List.mem_map, List.mem_singleton] at hprev
      rcases hprev with ⟨z, hz, rfl⟩ | rfl
      · exact ha z (List.mem_cons_of_mem x (List.mem_append_left _ hz)) rfl
      · exact ha x List.mem_cons_self rfl
    have hx : some x ≠ K.next (some b) := by
      intro he
      rw [← he, List.mem_append, List.mem_map, List.mem_singleton] at hnext
      rcases hnext with ⟨z, hz, hzx⟩ | hcx
      · obtain rfl : z = x := Option.some.inj hzx
        exact hnd.1 (List.mem_append_right l₁ (List.mem_cons_of_mem b hz))
      · exact hc x List.mem_cons_self hcx.symm
    refine ⟨⟨(Function.update_of_ne ha' _ _).trans h1, (Function.update_of_ne hx _ _).trans h2⟩,
      ih h hnd.2 ?_ ?_⟩
    · intro z hz
      rintro ⟨rfl⟩
      exact hnd.1 hz
    · exact fun z hz => hc z (List.mem_cons_of_mem x hz)

namespace Around

theorem unlink (h : Around K (l₁ ++ b :: l₂)) : Around (K.unlink b) (l₁ ++ l₂) := by
  refine ⟨h.path.unlink h.nodup ?_ ?_, ?_⟩
  · exact fun x _ => Option.some_ne_none x |>.symm
  · exact fun x _ => Option.some_ne_none x |>.symm
  · exact h.nodup.sublist ((List.sublist_cons_self b l₂).append_left l₁)

theorem pushFront (h : Around K l) (hb : b ∉ l) : Around (K.pushFront b) (b :: l) := by
  have hnone : K.next none ≠ some b := by
    intro he
    have hm := h.path.next_mem
    rw [he, List.mem_append, List.mem_map, List.mem_singleton] at hm
    rcases hm with ⟨x, hx, hxb⟩ | hcb
    · exact hb (Option.some.inj hxb ▸ hx)
    · exact Option.some_ne_none b hcb
  have hbnext : (K.pushFront b).next (some b) = K.next none := by
    simp only [Links.pushFront]
    rw [Function.update_of_ne (Option.some_ne_none b), Function.update_self]
  have hnext : ∀ x, x ≠ b → (K.pushFront b).next (some x) = K.next (some x) := by
    intro x hx
    simp only [Links.pushFront]
    rw [Function.update_of_ne (Option.some_ne_none x),
      Function.update_of_ne (fun he => hx (Option.some.inj he))]
  have hprev : (K.pushFront b).prev = Function.update (Function.update K.prev (some b) none)
      (K.next none) (some b) := by
    simp only [Links.pushFront]
    rw [Function.update_of_ne (Option.some_ne_none b).symm]
  have hfirst : (K.pushFront b).next none = some b := by
    simp only [Links.pushFront, Function.update_self]
  have hback : (K.pushFront b).prev (some b) = none := by
    rw [hprev, Function.update_of_ne hnone.symm, Function.update_self]
  have hold : (K.pushFront b).prev (K.next none) = some b := by
    rw [hprev, Function.update_self]
  refine ⟨⟨⟨hfirst, hback⟩, ?_⟩, List.nodup_cons.mpr ⟨hb, h.nodup⟩⟩
  cases l with
  | nil =>
    have hN : K.next none = none := h.path.1
    rw [hN] at hbnext hold
    exact ⟨hbnext, hold⟩
  | cons y l =>
    obtain ⟨⟨hN, -⟩, hpath⟩ := h.path
    rw [hN] at hbnext hold hprev
    have hne : ∀ x ∈ y :: l, x ≠ b := fun x hx he => hb (he ▸ hx)
    refine ⟨⟨hbnext, hold⟩, hpath.congr (hnext y (hne y List.mem_cons_self)) ?_ ?_⟩
    · intro x hx
      have hxb := hne x (List.mem_cons_of_mem y hx)
      refine ⟨hnext x hxb, ?_⟩
      have hxy : some x ≠ some y := by
        rintro ⟨rfl⟩
        exact (List.nodup_cons.mp h.nodup).1 hx
      rw [hprev, Function.update_of_ne hxy,
        Function.update_of_ne fun he => hxb (Option.some.inj he)]
    · rw [hprev, Function.update_of_ne (Option.some_ne_none y).symm,
        Function.update_of_ne (Option.some_ne_none b).symm]

/-- Pushing the elements of a list one after the other. -/
theorem foldl_pushFront (h : Around K l) (hnd : (l₁ ++ l).Nodup) :
    Around (l₁.foldl Links.pushFront K) (l₁.reverse ++ l) := by
  induction l₁ generalizing K l with
  | nil => exact h
  | cons x l₁ ih =>
    rw [List.cons_append, List.nodup_cons] at hnd
    have hx : x ∉ l := fun hm => hnd.1 (List.mem_append_right l₁ hm)
    have hnd' : (l₁ ++ x :: l).Nodup :=
      List.nodup_middle.mpr (List.nodup_cons.mpr ⟨hnd.1, hnd.2⟩)
    rw [List.reverse_cons, List.append_assoc]
    exact ih (h.pushFront hx) hnd'

/-- **Move to front.** -/
theorem moveFront (h : Around K l) (hb : b ∈ l) :
    Around ((K.unlink b).pushFront b) (b :: l.erase b) := by
  obtain ⟨l₁, l₂, rfl⟩ := List.append_of_mem hb
  have hnd : b ∉ l₁ ++ l₂ := (List.nodup_cons.mp (List.nodup_middle.mp h.nodup)).1
  have herase : (l₁ ++ b :: l₂).erase b = l₁ ++ l₂ := by
    rw [List.erase_append_right _ fun hm => hnd (List.mem_append_left l₂ hm),
      List.erase_cons_head]
  rw [herase]
  exact h.unlink.pushFront hnd

end Around

end Dll
