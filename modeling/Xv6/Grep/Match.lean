import Xv6.Lib.Letters
import Xv6.User.Grep

/-!
# Match — `match` decides a regular language

A pattern is read from left to right as items, each of them a language; the matcher, which tries the shortest
repetition first, accepts exactly the texts with a part in their concatenation.
-/

namespace Xv6.Grep

open scoped Computability
open Language

variable {c : UInt8} {re text : List UInt8}

/-- A character, or one that is repeated. -/
inductive Item where
  | once (c : UInt8)
  | star (c : UInt8)

/-- A dot stands for every character. -/
def admits (c x : UInt8) : Prop := c = DOT ∨ c = x

def Item.language : Item → Language UInt8
  | .once c => letter (admits c)
  | .star c => (letter (admits c))∗

/-- The items of a pattern, and whether a `$` is behind them. -/
def items : List UInt8 → List Item × Bool
  | [] => ([], false)
  | c :: STAR :: re => (.star c :: (items re).1, (items re).2)
  | [DOLLAR] => ([], true)
  | c :: re => (.once c :: (items re).1, (items re).2)

/-- A pattern without the `^` at its start. -/
def body : List UInt8 → List UInt8
  | CARET :: re => re
  | re => re

/-- A part of the text is in the language of the pattern. -/
def Matches (re text : List UInt8) : Prop :=
  ∃ u w v, text = u ++ w ++ v ∧ w ∈ ((items (body re)).1.map Item.language).prod ∧
    (re.head? = some CARET → u = []) ∧ ((items (body re)).2 = true → v = [])

/-- The words that begin with a word of the items. -/
def words (x : List Item × Bool) : Language UInt8 :=
  (x.1.map Item.language).prod * if x.2 then 1 else ⊤

theorem words_cons (i : Item) (x : List Item × Bool) : words (i :: x.1, x.2) = i.language * words x := by
  rw [words, List.map_cons, List.prod_cons, mul_assoc]
  rfl

theorem mem_words {x : List Item × Bool} : text ∈ words x ↔
    ∃ w v, text = w ++ v ∧ w ∈ (x.1.map Item.language).prod ∧ (x.2 = true → v = []) := by
  rw [words, mem_mul]
  have hv : ∀ v, v ∈ (if x.2 then 1 else ⊤ : Language UInt8) ↔ (x.2 = true → v = []) := fun v => by
    split_ifs with hx
    · rw [mem_one]
      exact ⟨fun h _ => h, fun h => h hx⟩
    · exact ⟨fun _ h => absurd h hx, fun _ => trivial⟩
  constructor
  · rintro ⟨w, hw, v, hv', rfl⟩
    exact ⟨w, v, rfl, hw, (hv v).mp hv'⟩
  · rintro ⟨w, v, rfl, hw, hv'⟩
    exact ⟨w, hw, v, (hv v).mpr hv', rfl⟩

/-- The loop finds every repetition. -/
theorem matchstar_iff {l : Language UInt8} (h : ∀ text, matchhere re text = true ↔ text ∈ l) :
    matchstar c re text = true ↔ text ∈ (letter (admits c))∗ * l := by
  induction text with
  | nil =>
    rw [matchstar, nil_mem_kstar_mul, ← h]
    split_ifs with hm
    · exact iff_of_true rfl hm
    · exact iff_of_false id hm
  | cons x text ih =>
    have hadm : (x = c ∨ c = DOT) ↔ admits c x := or_comm.trans (or_congr_right eq_comm)
    rw [matchstar, cons_mem_kstar_mul, ← h, ← ih, ← hadm]
    split_ifs with hm ha
    · exact iff_of_true rfl (Or.inl hm)
    · rw [or_iff_right hm]
      exact (and_iff_right ha).symm
    · rw [or_iff_right hm]
      exact iff_of_false id fun h => ha h.1

/-- **`matchhere` looks at the beginning.** -/
theorem matchhere_iff : matchhere re text = true ↔ text ∈ words (items re) := by
  induction re using items.induct generalizing text with
  | case1 =>
    rw [matchhere, items, words, List.map_nil, List.prod_nil, one_mul]
    exact iff_of_true rfl trivial
  | case2 c re ih =>
    rw [matchhere, items, words_cons]
    exact matchstar_iff fun _ => ih
  | case3 =>
    rw [matchhere, items, words, List.map_nil, List.prod_nil, one_mul, if_pos rfl, mem_one]
    exact List.isEmpty_iff
  | case4 c re hstar hdollar ih =>
    rw [items, words_cons]
    · cases text with
      | nil =>
        rw [matchhere]
        · exact iff_of_false Bool.false_ne_true nil_mem_letter_mul
        · exact hstar
        · exact hdollar
      | cons x text =>
        rw [matchhere, Item.language, cons_mem_letter_mul, ← ih]
        · split_ifs with hadm
          · exact (and_iff_right hadm).symm
          · exact iff_of_false id fun h => hadm h.1
        · exact hstar
        · exact hdollar
    · exact hstar
    · exact hdollar

/-- The search tries every place. -/
theorem matchLoop_iff : matchLoop re text = true ↔ text ∈ (⊤ : Language UInt8) * words (items re) := by
  induction text with
  | nil => rw [matchLoop, nil_mem_top_mul, matchhere_iff]
  | cons x text ih =>
    rw [matchLoop, cons_mem_top_mul, ← ih, ← matchhere_iff]
    split_ifs with hm
    · exact iff_of_true rfl (Or.inl hm)
    · exact (or_iff_right hm).symm

/-- **`match` matches.** -/
theorem match_iff (re text : List UInt8) : «match» re text = true ↔ Matches re text := by
  by_cases hcaret : re.head? = some CARET
  · obtain ⟨re, rfl⟩ := List.head?_eq_some_iff.mp hcaret
    change matchhere re text = true ↔ _
    rw [matchhere_iff, mem_words]
    constructor
    · rintro ⟨w, v, h, hw, hv⟩
      exact ⟨[], w, v, h, hw, fun _ => rfl, hv⟩
    · rintro ⟨u, w, v, h, hw, hu, hv⟩
      rw [hu hcaret] at h
      exact ⟨w, v, h, hw, hv⟩
  · have hre : ∀ re', re = CARET :: re' → False := fun re' h => hcaret (by rw [h]; rfl)
    have hbody : body re = re := by
      rw [body]
      exact hre
    rw [«match», matchLoop_iff, mem_top_mul, Matches, hbody]
    · constructor
      · rintro ⟨u, t, rfl, ht⟩
        obtain ⟨w, v, rfl, hw, hv⟩ := mem_words.mp ht
        exact ⟨u, w, v, (List.append_assoc u w v).symm, hw, fun h => absurd h hcaret, hv⟩
      · rintro ⟨u, w, v, rfl, hw, -, hv⟩
        exact ⟨u, w ++ v, (List.append_assoc u w v).symm, mem_words.mpr ⟨w, v, rfl, hw, hv⟩⟩
    · exact hre

end Xv6.Grep
