import Xv6.User.Sh

/-!
# Tokens — what `gettoken` delivers

`tokens` are the tokens of a string.  `Rest` says which of them are left at a pointer: `gettoken` takes the
first one, and `peek` passes over white space only.
-/

namespace Xv6.Sh

/-- The tokens that `gettoken` delivers from `ps` on, at most `n`. -/
def tokensFrom (m : ByteStore) (es : ℕ) : ℕ → ℕ → List Token
  | 0, _ => []
  | n + 1, ps =>
    let (t, ps') := gettoken m es ps
    if t.ret = 0 then [] else t :: tokensFrom m es n ps'

/-- The tokens that `gettoken` delivers from `ps` on. -/
def tokens (m : ByteStore) (es ps : ℕ) : List Token := tokensFrom m es (es - ps) ps

/-- A byte of a word. -/
def plain (c : UInt8) : Bool := c ≠ 0 && !strchr whitespace c && !strchr symbols c

/-- The first byte of a token that is no word. -/
def opener (ret : UInt8) : UInt8 := if ret = PLUS then GT else ret

/-- The first token is one of `toks`. -/
def starts (toks : List UInt8) : List Token → Bool
  | [] => false
  | t :: _ => strchr toks (opener t.ret)

/-- A token of a string that ends at `es`. -/
structure TokenOk (m : ByteStore) (es : ℕ) (t : Token) : Prop where
  lt : t.q < t.eq
  le : t.eq ≤ es
  ret : t.ret ≠ 0
  word : t.ret = WORD → ∀ x, t.q ≤ x → x < t.eq → plain (m x) = true
  stop : t.ret = WORD → plain (m t.eq) = false
  head : t.ret ≠ WORD → m t.q = opener t.ret ∧ strchr symbols (m t.q) = true

/-- The tokens `ts` are left at `ps`, in the string from `s` to `es`. -/
structure Rest (m : ByteStore) (s es ps : ℕ) (ts : List Token) : Prop where
  str : m.IsStr s es
  ge : s ≤ ps
  le : ps ≤ es
  eq : tokens m es ps = ts

variable {m : ByteStore} {s es ps n : ℕ} {t : Token} {ts : List Token} {toks : List UInt8} {c : UInt8}

theorem plain_of_not (h0 : c ≠ 0) (hw : strchr whitespace c = false) (hs : strchr symbols c = false) :
    plain c = true := by
  simp [plain, h0, hw, hs]

theorem le_skipWhite : ps ≤ skipWhite m es ps := ByteStore.le_skip

theorem skipWhite_le (h : ps ≤ es) : skipWhite m es ps ≤ es := by
  have hle : skipWhite m es ps ≤ ps + (es - ps) := ByteStore.skip_le
  omega

theorem skipWhite_stop (h : skipWhite m es ps < es) : strchr whitespace (m (skipWhite m es ps)) = false :=
  ByteStore.skip_stop (by
    have hle : ps ≤ skipWhite m es ps := le_skipWhite
    unfold skipWhite at *
    omega)

theorem skipWhite_skipWhite (h : ps ≤ es) :
    skipWhite m es (skipWhite m es ps) = skipWhite m es ps := ByteStore.skip_skip h

theorem gettoken_skipWhite (h : ps ≤ es) :
    gettoken m es (skipWhite m es ps) = gettoken m es ps := by
  unfold gettoken
  rw [skipWhite_skipWhite h]

/-- **`gettoken`** finds the end of the string, or it delivers a token and moves on. -/
theorem gettoken_spec (hs : m.IsStr s es) (hge : s ≤ ps) (hle : ps ≤ es) :
    (gettoken m es ps = (⟨0, es, es⟩, es) ∧ skipWhite m es ps = es) ∨
    ∃ t ps', gettoken m es ps = (t, ps') ∧ TokenOk m es t ∧ t.q = skipWhite m es ps ∧ ps < ps' ∧
      ps' ≤ es := by
  have hq : skipWhite m es ps ≤ es := skipWhite_le hle
  have hpq : ps ≤ skipWhite m es ps := le_skipWhite
  rcases hq.eq_or_lt with heq | hlt
  · left
    refine ⟨?_, heq⟩
    unfold gettoken
    dsimp only
    rw [heq, hs.nul, if_pos rfl]
    have hend : skipWhite m es es = es := by
      unfold skipWhite
      rw [Nat.sub_self]
      rfl
    dsimp only
    rw [hend]
  right
  have hne : m (skipWhite m es ps) ≠ 0 := hs.ne _ (by omega) hlt
  have hws := skipWhite_stop hlt
  unfold gettoken
  dsimp only
  rw [if_neg hne]
  generalize skipWhite m es ps = q at *
  have hnext : ∀ e, q < e → e ≤ es → ps < skipWhite m es e ∧ skipWhite m es e ≤ es := fun e h1 h2 => by
    have h3 : e ≤ skipWhite m es e := le_skipWhite
    exact ⟨by omega, skipWhite_le h2⟩
  by_cases h1 : m q = BAR ∨ m q = LPAR ∨ m q = RPAR ∨ m q = SEMI ∨ m q = AMP ∨ m q = LT
  · rw [if_pos h1]
    refine ⟨_, _, rfl, ⟨Nat.lt_succ_self q, hlt, hne, fun h => ?_, fun h => ?_, fun _ => ?_⟩, rfl,
      hnext _ (Nat.lt_succ_self q) hlt⟩
    · dsimp only at h
      rw [h] at h1
      exact absurd h1 (by decide)
    · dsimp only at h
      rw [h] at h1
      exact absurd h1 (by decide)
    · dsimp only
      rcases h1 with h | h | h | h | h | h <;> rw [h] <;> decide
  rw [if_neg h1]
  have hplus : PLUS ≠ 0 ∧ PLUS ≠ WORD := by decide
  have hgt : GT ≠ 0 ∧ GT ≠ WORD := by decide
  have hword : WORD ≠ 0 := by decide
  by_cases h2 : m q = GT
  · rw [if_pos h2]
    by_cases h3 : m (q + 1) = GT
    · have hlt2 : q + 1 < es := by
        refine lt_of_le_of_ne hlt fun h => ?_
        rw [h, hs.nul] at h3
        exact absurd h3 (by decide)
      rw [if_pos h3]
      refine ⟨⟨PLUS, q, q + 2⟩, _, rfl, ⟨Nat.lt_add_of_pos_right two_pos, hlt2, hplus.1,
        fun h => absurd h hplus.2, fun h => absurd h hplus.2, fun _ => ?_⟩, rfl, hnext _ (by omega) hlt2⟩
      dsimp only
      rw [h2]
      decide
    · rw [if_neg h3]
      refine ⟨⟨GT, q, q + 1⟩, _, rfl, ⟨Nat.lt_succ_self q, hlt, hgt.1, fun h => absurd h hgt.2,
        fun h => absurd h hgt.2, fun _ => ?_⟩, rfl, hnext _ (Nat.lt_succ_self q) hlt⟩
      dsimp only
      rw [h2]
      decide
  rw [if_neg h2]
  -- a word: its first byte is none of the symbols
  have hsym : strchr symbols (m q) = false := by
    simp only [not_or] at h1
    simp [strchr, symbols, h1, h2]
  generalize he : m.skip (fun c => !strchr whitespace c && !strchr symbols c) (es - q) q = e
  have hqe : q < e := by
    obtain ⟨k, hk⟩ : ∃ k, es - q = k + 1 := ⟨es - q - 1, by omega⟩
    rw [hk, ByteStore.skip, if_pos (by simp [hws, hsym])] at he
    have hle' : q + 1 ≤ e := he ▸ ByteStore.le_skip
    omega
  have hee : e ≤ es := by
    have hle' : e ≤ q + (es - q) := he ▸ ByteStore.skip_le
    omega
  refine ⟨⟨WORD, q, e⟩, _, rfl, ⟨hqe, hee, hword, fun _ x hx hxe => ?_, fun _ => ?_, fun h => absurd rfl h⟩,
    rfl, hnext e hqe hee⟩
  · dsimp only at hx hxe
    have hall := ByteStore.skip_all hx (by rwa [he])
    have h0 := hs.ne x (by omega) (by omega)
    simp only [Bool.and_eq_true, Bool.not_eq_true'] at hall
    exact plain_of_not h0 hall.1 hall.2
  · rcases hee.eq_or_lt with heq | hlt'
    · dsimp only
      rw [heq, hs.nul]
      decide
    · have hskip : m.skip (fun c => !strchr whitespace c && !strchr symbols c) (es - q) q < q + (es - q) := by
        rw [he]
        omega
      have hstop := ByteStore.skip_stop hskip
      rw [he] at hstop
      dsimp only
      rw [plain, Bool.and_assoc, hstop, Bool.and_false]

theorem tokensFrom_succ : tokensFrom m es (n + 1) ps =
    if (gettoken m es ps).1.ret = 0 then []
    else (gettoken m es ps).1 :: tokensFrom m es n (gettoken m es ps).2 := rfl

/-- The bytes that are left bound the tokens. -/
theorem tokensFrom_eq (hs : m.IsStr s es) : ∀ n k ps, s ≤ ps → ps ≤ es → es - ps ≤ n → es - ps ≤ k →
    tokensFrom m es n ps = tokensFrom m es k ps := by
  intro n
  induction n with
  | zero =>
    intro k ps hge hle hn _
    cases k with
    | zero => rfl
    | succ k =>
      rcases gettoken_spec hs hge hle with ⟨heq, -⟩ | ⟨t, ps', -, -, -, hlt, hle'⟩
      · rw [tokensFrom_succ, heq, if_pos rfl, tokensFrom]
      · omega
  | succ n ih =>
    intro k ps hge hle hn hk
    rcases gettoken_spec hs hge hle with ⟨heq, -⟩ | ⟨t, ps', heq, ht, -, hlt, hle'⟩
    · rw [tokensFrom_succ, heq, if_pos rfl]
      cases k with
      | zero => rfl
      | succ k => rw [tokensFrom_succ, heq, if_pos rfl]
    · obtain ⟨k, rfl⟩ : ∃ k', k = k' + 1 := ⟨k - 1, by omega⟩
      rw [tokensFrom_succ, tokensFrom_succ, heq, if_neg ht.ret, if_neg ht.ret,
        ih k ps' (by omega) hle' (by omega) (by omega)]

theorem Rest.start (hs : m.IsStr s es) : Rest m s es s (tokens m es s) := ⟨hs, le_rfl, hs.le, rfl⟩

/-- The tokens after a call of `gettoken`. -/
theorem tokens_eq (hs : m.IsStr s es) (hge : s ≤ ps) (hle : ps ≤ es) :
    tokens m es ps = if (gettoken m es ps).1.ret = 0 then []
      else (gettoken m es ps).1 :: tokens m es (gettoken m es ps).2 := by
  rw [tokens, tokensFrom_eq hs _ (es - ps + 1) ps hge hle le_rfl (Nat.le_succ _), tokensFrom_succ]
  rcases gettoken_spec hs hge hle with ⟨heq, -⟩ | ⟨t, ps', heq, ht, -, hlt, hle'⟩
  · rw [heq, if_pos rfl, if_pos rfl]
  · rw [heq, if_neg ht.ret, if_neg ht.ret, tokens,
      tokensFrom_eq hs (es - ps) (es - ps') ps' (by omega) hle' (by omega) le_rfl]

theorem Rest.gettoken_nil (h : Rest m s es ps []) :
    gettoken m es ps = (⟨0, es, es⟩, es) ∧ skipWhite m es ps = es := by
  have heq := h.eq
  rw [tokens_eq h.str h.ge h.le] at heq
  rcases gettoken_spec h.str h.ge h.le with hg | ⟨t, ps', hg, ht, -⟩
  · exact hg
  · rw [hg, if_neg ht.ret] at heq
    cases heq

theorem Rest.gettoken_cons (h : Rest m s es ps (t :: ts)) :
    ∃ ps', gettoken m es ps = (t, ps') ∧ TokenOk m es t ∧ t.q = skipWhite m es ps ∧
      Rest m s es ps' ts := by
  have heq := h.eq
  have hge := h.ge
  rw [tokens_eq h.str h.ge h.le] at heq
  rcases gettoken_spec h.str h.ge h.le with ⟨hg, -⟩ | ⟨t', ps', hg, ht, hq, hlt, hle⟩
  · rw [hg, if_pos rfl] at heq
    cases heq
  · rw [hg, if_neg ht.ret] at heq
    injection heq with h1 h2
    subst h1
    exact ⟨ps', hg, ht, hq, h.str, by omega, hle, h2⟩

/-- **`peek`** looks at the first token. -/
theorem Rest.peek (h : Rest m s es ps ts) (htoks : ∀ c, strchr toks c = true → strchr symbols c = true) :
    ∃ ps', peek m es ps toks = (starts toks ts, ps') ∧ Rest m s es ps' ts := by
  have hle := h.le
  have hge : ps ≤ skipWhite m es ps := le_skipWhite
  refine ⟨skipWhite m es ps, ?_, h.str, h.ge.trans hge, skipWhite_le h.le, ?_⟩
  · refine Prod.ext ?_ rfl
    unfold Sh.peek
    dsimp only
    cases ts with
    | nil =>
      rw [h.gettoken_nil.2, h.str.nul]
      rfl
    | cons t ts =>
      obtain ⟨ps', -, ht, hq, -⟩ := h.gettoken_cons
      have hlt := ht.lt
      have hes := ht.le
      have hne : m t.q ≠ 0 := h.str.ne _ (by have := h.ge; omega) (by omega)
      rw [← hq, decide_eq_true hne, Bool.true_and, starts]
      by_cases hw : t.ret = WORD
      · -- a word starts with none of the symbols
        have hplain := ht.word hw t.q le_rfl hlt
        have h1 : strchr toks (m t.q) = false := Bool.eq_false_iff.mpr fun hc => by
          rw [plain, htoks _ hc, Bool.not_true, Bool.and_false] at hplain
          cases hplain
        have h2 : strchr toks (opener t.ret) = false := Bool.eq_false_iff.mpr fun hc => by
          have hc := htoks _ hc
          rw [hw] at hc
          exact absurd hc (by decide)
        rw [h1, h2]
      · rw [(ht.head hw).1]
  · rw [← h.eq, tokens_eq h.str (h.ge.trans hge) (skipWhite_le h.le), gettoken_skipWhite h.le,
      ← tokens_eq h.str h.ge h.le]

end Xv6.Sh
