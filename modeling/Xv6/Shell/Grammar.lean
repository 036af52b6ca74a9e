import Mathlib.Data.List.Basic
import Xv6.Shell.Tokens

/-!
# Grammar — the commands that the parser accepts

`Derives` are the derivations of the grammar

* line = pipe `&`* [`;` line]
* pipe = exec [`|` pipe]
* exec = `(` line `)` redir* or redir* (word redir*)*, with less than `MAXARGS` words

with the tree that belongs to each.  The parser finds a derivation for the tokens that it takes, or it
panics (`parse_sound`), and it finds the derivation that there is (`parse_complete`).
-/

namespace Xv6.Sh

/-! ## Trees -/

/-- `<`, `>` or `>>` and a file. -/
structure Redir where
  op : Token
  file : Token

namespace Redir

def Ok (r : Redir) : Prop := (r.op.ret = LT ∨ r.op.ret = GT ∨ r.op.ret = PLUS) ∧ r.file.ret = WORD

def toks (r : Redir) : List Token := [r.op, r.file]

def wrap (r : Redir) (c : cmd) : cmd :=
  if r.op.ret = LT then .redircmd c r.file.q r.file.eq O_RDONLY 0
  else if r.op.ret = GT then .redircmd c r.file.q r.file.eq (O_WRONLY ||| O_CREATE ||| O_TRUNC) 1
  else .redircmd c r.file.q r.file.eq (O_WRONLY ||| O_CREATE) 1

end Redir

def redirToks (rs : List Redir) : List Token := rs.flatMap Redir.toks

/-- The first redirection is the innermost one. -/
def wrapAll (rs : List Redir) (c : cmd) : cmd := rs.foldl (fun c r => r.wrap c) c

/-- A word and the redirections behind it. -/
structure Arg where
  word : Token
  redirs : List Redir

namespace Arg

def Ok (a : Arg) : Prop := a.word.ret = WORD ∧ ∀ r ∈ a.redirs, r.Ok

def toks (a : Arg) : List Token := a.word :: redirToks a.redirs

end Arg

/-- The `execcmd` with the words `ws`. -/
def execOf (ws : List Token) : cmd :=
  .execcmd (fun i => ws[i.val]?.map Token.q) fun i => ws[i.val]?.map Token.eq

inductive Symbol where
  | line
  | pipe
  | exec

/-- `Derives S us c`: the symbol derives the tokens `us`, and `c` is the tree of the derivation. -/
inductive Derives : Symbol → List Token → cmd → Prop where
  | block {l r : Token} {us : List Token} {c : cmd} {rs : List Redir} (hl : l.ret = LPAR)
      (h : Derives .line us c) (hr : r.ret = RPAR) (hrs : ∀ x ∈ rs, x.Ok) :
      Derives .exec (l :: us ++ r :: redirToks rs) (wrapAll rs c)
  | words {rs : List Redir} {args : List Arg} (hrs : ∀ x ∈ rs, x.Ok) (hargs : ∀ a ∈ args, a.Ok)
      (hlen : args.length < MAXARGS) :
      Derives .exec (redirToks rs ++ args.flatMap Arg.toks)
        (wrapAll (rs ++ args.flatMap Arg.redirs) (execOf (args.map Arg.word)))
  | exec {us : List Token} {c : cmd} (h : Derives .exec us c) : Derives .pipe us c
  | pipe {t : Token} {us vs : List Token} {c d : cmd} (h : Derives .exec us c) (ht : t.ret = BAR)
      (h' : Derives .pipe vs d) : Derives .pipe (us ++ t :: vs) (.pipecmd c d)
  | back {us as : List Token} {c : cmd} (h : Derives .pipe us c) (has : ∀ t ∈ as, t.ret = AMP) :
      Derives .line (us ++ as) (cmd.backcmd^[as.length] c)
  | list {t : Token} {us as vs : List Token} {c d : cmd} (h : Derives .pipe us c)
      (has : ∀ t ∈ as, t.ret = AMP) (ht : t.ret = SEMI) (h' : Derives .line vs d) :
      Derives .line (us ++ as ++ t :: vs) (.listcmd (cmd.backcmd^[as.length] c) d)

/-! ## Runs of the parser -/

/-- A run that returns a result with `P`, or panics. -/
def Parses {α : Type} (x : Except Stop α) (P : α → Prop) : Prop :=
  (∃ a, x = .ok a ∧ P a) ∨ ∃ s, x = .error (.panic s)

section

variable {α β : Type} {x : Except Stop α} {f : α → Except Stop β} {P P' : α → Prop} {Q : β → Prop}

theorem Parses.ok {a : α} (h : P a) : Parses (.ok a) P := Or.inl ⟨a, rfl, h⟩

theorem Parses.panic {s : String} : Parses (.error (.panic s)) P := Or.inr ⟨s, rfl⟩

theorem run_ok {a : α} : ((Except.ok a : Except Stop α) >>= f) = f a := rfl

theorem Parses.bind (h : Parses x P) (hf : ∀ a, P a → Parses (f a) Q) : Parses (x >>= f) Q := by
  rcases h with ⟨a, rfl, ha⟩ | ⟨s, rfl⟩
  · exact hf a ha
  · exact Or.inr ⟨s, rfl⟩

theorem Parses.mono (h : Parses x P) (hP : ∀ a, P a → P' a) : Parses x P' :=
  h.imp (fun ⟨a, hx, ha⟩ => ⟨a, hx, hP a ha⟩) id

end

variable {m : ByteStore} {s es ps fuel : ℕ} {t : Token} {ts us vs ws : List Token} {c d : cmd}
  {rs : List Redir} {args : List Arg} {toks : List UInt8}

/-! ## Token lists -/

theorem starts_cons : starts toks (t :: ts) = strchr toks (opener t.ret) := rfl

theorem starts_one {a : UInt8} (hg : a ≠ GT) (hp : a ≠ PLUS) : starts [a] (t :: ts) = true ↔ t.ret = a := by
  unfold starts strchr opener
  by_cases h : t.ret = PLUS
  · simp [h, hg.symm, hp.symm]
  · simp [h]

theorem starts_redir : starts [LT, GT] (t :: ts) = true ↔ t.ret = LT ∨ t.ret = GT ∨ t.ret = PLUS := by
  unfold starts strchr opener
  by_cases h : t.ret = PLUS
  · simp [h]
  · simp [h]

theorem starts_word (h : t.ret = WORD) (htoks : ∀ c, strchr toks c = true → strchr symbols c = true) :
    starts toks (t :: ts) = false := by
  refine Bool.eq_false_iff.mpr fun hc => ?_
  have hsym := htoks _ hc
  rw [h] at hsym
  exact absurd hsym (by decide)

theorem wrapAll_append (rs rs' : List Redir) : wrapAll (rs ++ rs') c = wrapAll rs' (wrapAll rs c) := by
  rw [wrapAll, wrapAll, wrapAll, List.foldl_append]

theorem redirToks_length : (redirToks rs).length = 2 * rs.length := by
  induction rs with
  | nil => rfl
  | cons r rs ih =>
    rw [redirToks] at *
    rw [List.flatMap_cons, List.length_append, ih, List.length_cons, Redir.toks]
    simp only [List.length_cons, List.length_nil]
    omega

theorem setArg_wrapAll {i : ℕ} {q eq : Option ℕ} :
    setArg i q eq (wrapAll rs c) = (setArg i q eq c).map (wrapAll rs) := by
  induction rs generalizing c with
  | nil =>
    show setArg i q eq c = (setArg i q eq c).map id
    cases setArg i q eq c <;> rfl
  | cons r rs ih =>
    have hwrap : setArg i q eq (r.wrap c) = (setArg i q eq c).map r.wrap := by
      unfold Redir.wrap
      split
      · rfl
      · split <;> rfl
    show setArg i q eq (wrapAll rs (r.wrap c)) = (setArg i q eq c).map fun c => wrapAll rs (r.wrap c)
    rw [ih, hwrap]
    cases setArg i q eq c <;> rfl

/-- The next word. -/
theorem setArg_next (h : ws.length < MAXARGS) :
    setArg ws.length (some t.q) (some t.eq) (wrapAll rs (execOf ws)) =
      .ok (wrapAll rs (execOf (ws ++ [t]))) := by
  have hupd : ∀ f : Token → ℕ, (Function.update (fun i : Fin MAXARGS => ws[i.val]?.map f) ⟨ws.length, h⟩
      (some (f t))) = fun i => (ws ++ [t])[i.val]?.map f := by
    intro f
    funext i
    by_cases hi : i = ⟨ws.length, h⟩
    · subst hi
      simp
    · rw [Function.update_of_ne hi]
      have hne : i.val ≠ ws.length := fun hv => hi (Fin.ext hv)
      by_cases hlt : i.val < ws.length
      · rw [List.getElem?_append_left hlt]
      · rw [List.getElem?_eq_none (by omega), List.getElem?_eq_none (by simp; omega)]
  rw [setArg_wrapAll, execOf, setArg, dif_pos h, hupd, hupd]
  rfl

/-- The null pointer behind the words. -/
theorem setArg_last (h : ws.length < MAXARGS) :
    setArg ws.length none none (wrapAll rs (execOf ws)) = .ok (wrapAll rs (execOf ws)) := by
  have hupd : ∀ f : Token → ℕ, (Function.update (fun i : Fin MAXARGS => ws[i.val]?.map f) ⟨ws.length, h⟩
      none) = fun i => ws[i.val]?.map f := by
    intro f
    refine Function.update_eq_self_iff.mpr ?_
    simp
  rw [setArg_wrapAll, execOf, setArg, dif_pos h, hupd, hupd]
  rfl

/-! ## The parser finds a derivation -/

theorem redir_symbols : ∀ c, strchr [LT, GT] c = true → strchr symbols c = true := by
  intro c hc
  simp only [strchr, List.contains_cons, List.contains_nil, Bool.or_false, Bool.or_eq_true, beq_iff_eq] at hc
  rcases hc with rfl | rfl <;> decide

theorem last_symbols : ∀ c, strchr [BAR, RPAR, AMP, SEMI] c = true → strchr symbols c = true := by
  intro c hc
  simp only [strchr, List.contains_cons, List.contains_nil, Bool.or_false, Bool.or_eq_true, beq_iff_eq] at hc
  rcases hc with rfl | rfl | rfl | rfl <;> decide

theorem one_symbols {a : UInt8} (ha : strchr symbols a = true) :
    ∀ c, strchr [a] c = true → strchr symbols c = true := by
  intro c hc
  simp only [strchr, List.contains_cons, List.contains_nil, Bool.or_false, beq_iff_eq] at hc
  rw [hc]
  exact ha

/-- What `parseredirs` has done. -/
structure Redirs (m : ByteStore) (s es : ℕ) (ts : List Token) (c : cmd) (rs : List Redir)
    (us : List Token) (r : cmd × ℕ) : Prop where
  toks : ts = redirToks rs ++ us
  ok : ∀ x ∈ rs, x.Ok
  tree : r.1 = wrapAll rs c
  rest : Rest m s es r.2 us

theorem parseredirs_stop (fuel : ℕ) (c : cmd) (h : Rest m s es ps ts) (hmore : starts [LT, GT] ts = false) :
    ∃ p, parseredirs m es (fuel + 1) c ps = .ok (c, p) ∧ Rest m s es p ts := by
  obtain ⟨p, hpeek, h₁⟩ := h.peek redir_symbols
  rw [parseredirs, hpeek, hmore]
  exact ⟨p, rfl, h₁⟩

/-- One redirection. -/
theorem parseredirs_step (fuel : ℕ) (c : cmd) {r : Redir} (h : Rest m s es ps (r.op :: r.file :: ts))
    (hr : r.Ok) :
    ∃ p, parseredirs m es (fuel + 1) c ps = parseredirs m es fuel (r.wrap c) p ∧ Rest m s es p ts := by
  obtain ⟨p₁, hpeek, h₁⟩ := h.peek redir_symbols
  obtain ⟨p₂, hget, -, -, h₂⟩ := h₁.gettoken_cons
  obtain ⟨p₃, hget', -, -, h₃⟩ := h₂.gettoken_cons
  refine ⟨p₃, ?_, h₃⟩
  rw [parseredirs, hpeek]
  dsimp only
  rw [if_pos (starts_redir.mpr hr.1), hget]
  dsimp only
  rw [hget']
  dsimp only
  rw [if_neg (not_not_intro hr.2)]
  unfold Redir.wrap
  by_cases h1 : r.op.ret = LT
  · rw [if_pos h1, if_pos h1]
  rw [if_neg h1, if_neg h1]
  by_cases h2 : r.op.ret = GT
  · rw [if_pos h2, if_pos h2]
  · rw [if_neg h2, if_neg h2, if_pos ((hr.1.resolve_left h1).resolve_left h2)]

theorem parseredirs_sound : ∀ fuel c ps ts, Rest m s es ps ts → ts.length < fuel →
    Parses (parseredirs m es fuel c ps) fun r => ∃ rs us, Redirs m s es ts c rs us r := by
  intro fuel
  induction fuel with
  | zero =>
    intro c ps ts _ hfuel
    exact absurd hfuel (Nat.not_lt_zero _)
  | succ fuel ih =>
    intro c ps ts h hfuel
    by_cases hmore : starts [LT, GT] ts = true
    swap
    · obtain ⟨p, heq, h₁⟩ := parseredirs_stop fuel c h (Bool.eq_false_iff.mpr hmore)
      rw [heq]
      exact Parses.ok ⟨[], ts, rfl, by simp, rfl, h₁⟩
    obtain _ | ⟨t, _ | ⟨file, ts⟩⟩ := ts
    · cases hmore
    · -- nothing behind the operator
      obtain ⟨p₁, hpeek, h₁⟩ := h.peek redir_symbols
      obtain ⟨p₂, hget, -, -, h₂⟩ := h₁.gettoken_cons
      rw [parseredirs, hpeek]
      dsimp only
      rw [if_pos hmore, hget]
      dsimp only
      rw [h₂.gettoken_nil.1]
      exact Parses.panic
    by_cases hw : file.ret = WORD
    swap
    · obtain ⟨p₁, hpeek, h₁⟩ := h.peek redir_symbols
      obtain ⟨p₂, hget, -, -, h₂⟩ := h₁.gettoken_cons
      obtain ⟨p₃, hget', -, -, h₃⟩ := h₂.gettoken_cons
      rw [parseredirs, hpeek]
      dsimp only
      rw [if_pos hmore, hget]
      dsimp only
      rw [hget']
      dsimp only
      rw [if_pos hw]
      exact Parses.panic
    have hr : Redir.Ok ⟨t, file⟩ := ⟨starts_redir.mp hmore, hw⟩
    obtain ⟨p, heq, h₁⟩ := parseredirs_step fuel c (r := ⟨t, file⟩) h hr
    rw [heq]
    simp only [List.length_cons] at hfuel
    refine (ih _ p ts h₁ (by omega)).mono fun r ⟨rs, us, hrs⟩ =>
      ⟨⟨t, file⟩ :: rs, us, ?_, List.forall_mem_cons.mpr ⟨hr, hrs.ok⟩, hrs.tree, hrs.rest⟩
    rw [hrs.toks]
    rfl

theorem parseredirs_complete : ∀ fuel rs c ps, Rest m s es ps (redirToks rs ++ us) → (∀ x ∈ rs, x.Ok) →
    starts [LT, GT] us = false → rs.length < fuel →
    ∃ p, parseredirs m es fuel c ps = .ok (wrapAll rs c, p) ∧ Rest m s es p us := by
  intro fuel
  induction fuel with
  | zero =>
    intro rs c ps _ _ _ hfuel
    exact absurd hfuel (Nat.not_lt_zero _)
  | succ fuel ih =>
    intro rs c ps h hrs hus hfuel
    cases rs with
    | nil => exact parseredirs_stop fuel c h hus
    | cons r rs =>
      obtain ⟨p, heq, h₁⟩ := parseredirs_step fuel c h (hrs r List.mem_cons_self)
      rw [heq]
      exact ih rs (r.wrap c) p h₁ (fun x hx => hrs x (List.mem_cons_of_mem r hx)) hus (by
        simp only [List.length_cons] at hfuel
        omega)

theorem backLoop_stop (fuel : ℕ) (c : cmd) (h : Rest m s es ps ts) (hmore : starts [AMP] ts = false) :
    ∃ p, backLoop m es (fuel + 1) c ps = .ok (c, p) ∧ Rest m s es p ts := by
  obtain ⟨p, hpeek, h₁⟩ := h.peek (one_symbols (by decide : strchr symbols AMP = true))
  rw [backLoop, hpeek, hmore]
  exact ⟨p, rfl, h₁⟩

theorem backLoop_step (fuel : ℕ) (c : cmd) (h : Rest m s es ps (t :: ts)) (ht : t.ret = AMP) :
    ∃ p, backLoop m es (fuel + 1) c ps = backLoop m es fuel (.backcmd c) p ∧ Rest m s es p ts := by
  obtain ⟨p₁, hpeek, h₁⟩ := h.peek (one_symbols (by decide : strchr symbols AMP = true))
  obtain ⟨p₂, hget, -, -, h₂⟩ := h₁.gettoken_cons
  rw [backLoop, hpeek]
  dsimp only
  rw [if_pos ((starts_one (by decide) (by decide)).mpr ht), hget]
  exact ⟨p₂, rfl, h₂⟩

theorem backLoop_complete : ∀ fuel as c ps, Rest m s es ps (as ++ us) → (∀ t ∈ as, t.ret = AMP) →
    starts [AMP] us = false → as.length < fuel →
    ∃ p, backLoop m es fuel c ps = .ok (cmd.backcmd^[as.length] c, p) ∧ Rest m s es p us := by
  intro fuel
  induction fuel with
  | zero =>
    intro as c ps _ _ _ hfuel
    exact absurd hfuel (Nat.not_lt_zero _)
  | succ fuel ih =>
    intro as c ps h has hus hfuel
    cases as with
    | nil => exact backLoop_stop fuel c h hus
    | cons t as =>
      obtain ⟨p, heq, h₁⟩ := backLoop_step fuel c h (has t List.mem_cons_self)
      rw [heq]
      exact ih as (.backcmd c) p h₁ (fun x hx => has x (List.mem_cons_of_mem t hx)) hus (by
        simp only [List.length_cons] at hfuel
        omega)

/-- The tokens that `backLoop` takes. -/
theorem amps_split (ts : List Token) :
    ∃ as us, ts = as ++ us ∧ (∀ t ∈ as, t.ret = AMP) ∧ starts [AMP] us = false := by
  induction ts with
  | nil => exact ⟨[], [], rfl, by simp, rfl⟩
  | cons t ts ih =>
    by_cases ht : t.ret = AMP
    · obtain ⟨as, us, rfl, has, hus⟩ := ih
      exact ⟨t :: as, us, rfl, List.forall_mem_cons.mpr ⟨ht, has⟩, hus⟩
    · refine ⟨[], t :: ts, rfl, by simp, Bool.eq_false_iff.mpr fun h => ?_⟩
      exact ht ((starts_one (by decide) (by decide)).mp h)

/-- What the loop of `parseexec` has done, from the words `ws` and the redirections `rs` on. -/
structure Args (m : ByteStore) (s es : ℕ) (ts : List Token) (ws : List Token) (rs : List Redir)
    (args : List Arg) (us : List Token) (r : ℕ × cmd × ℕ) : Prop where
  toks : ts = args.flatMap Arg.toks ++ us
  ok : ∀ a ∈ args, a.Ok
  argc : r.1 = (ws ++ args.map Arg.word).length
  lt : r.1 < MAXARGS
  tree : r.2.1 = wrapAll (rs ++ args.flatMap Arg.redirs) (execOf (ws ++ args.map Arg.word))
  rest : Rest m s es r.2.2 us

/-- The loop ends. -/
theorem argLoop_stop (fuel argc : ℕ) (c : cmd) (h : Rest m s es ps ts)
    (hts : ts = [] ∨ starts [BAR, RPAR, AMP, SEMI] ts = true) :
    ∃ p, argLoop m es (fuel + 1) argc c ps = .ok (argc, c, p) ∧ Rest m s es p ts := by
  obtain ⟨p, hpeek, h₁⟩ := h.peek last_symbols
  rw [argLoop, hpeek]
  dsimp only
  by_cases hlast : starts [BAR, RPAR, AMP, SEMI] ts = true
  · rw [if_pos hlast]
    exact ⟨p, rfl, h₁⟩
  · obtain rfl := hts.resolve_right hlast
    rw [if_neg hlast, h₁.gettoken_nil.1]
    refine ⟨es, rfl, h.str, h.str.le, le_rfl, ?_⟩
    rw [tokens, Nat.sub_self]
    rfl

/-- One round. -/
theorem argLoop_step (fuel : ℕ) (rs : List Redir) (h : Rest m s es ps (t :: ts)) (ht : t.ret = WORD)
    (hlen : ws.length < MAXARGS) :
    ∃ p, Rest m s es p ts ∧ argLoop m es (fuel + 1) ws.length (wrapAll rs (execOf ws)) ps =
      if MAXARGS ≤ ws.length + 1 then .error (.panic "too many args")
      else (parseredirs m es fuel (wrapAll rs (execOf (ws ++ [t]))) p) >>= fun r =>
        argLoop m es fuel (ws.length + 1) r.1 r.2 := by
  obtain ⟨p₁, hpeek, h₁⟩ := h.peek last_symbols
  obtain ⟨p₂, hget, htok, -, h₂⟩ := h₁.gettoken_cons
  refine ⟨p₂, h₂, ?_⟩
  rw [argLoop, hpeek]
  dsimp only
  rw [starts_word ht last_symbols, if_neg Bool.false_ne_true, hget]
  dsimp only
  rw [if_neg htok.ret, if_neg (not_not_intro ht), setArg_next hlen]
  rfl

theorem argLoop_sound : ∀ fuel ws rs ps ts, Rest m s es ps ts → ws.length < MAXARGS → ts.length < fuel →
    Parses (argLoop m es fuel ws.length (wrapAll rs (execOf ws)) ps) fun r =>
      ∃ args us, Args m s es ts ws rs args us r := by
  intro fuel
  induction fuel with
  | zero =>
    intro ws rs ps ts _ _ hfuel
    exact absurd hfuel (Nat.not_lt_zero _)
  | succ fuel ih =>
    intro ws rs ps ts h hlen hfuel
    by_cases hts : ts = [] ∨ starts [BAR, RPAR, AMP, SEMI] ts = true
    · obtain ⟨p, heq, h₁⟩ := argLoop_stop fuel ws.length (wrapAll rs (execOf ws)) h hts
      rw [heq]
      exact Parses.ok ⟨[], ts, rfl, by simp, by simp, hlen, by simp, h₁⟩
    rw [not_or] at hts
    obtain _ | ⟨t, ts⟩ := ts
    · exact absurd rfl hts.1
    by_cases ht : t.ret = WORD
    swap
    · obtain ⟨p₁, hpeek, h₁⟩ := h.peek last_symbols
      obtain ⟨p₂, hget, htok, -, h₂⟩ := h₁.gettoken_cons
      rw [argLoop, hpeek]
      dsimp only
      rw [if_neg hts.2, hget]
      dsimp only
      rw [if_neg htok.ret, if_pos ht]
      exact Parses.panic
    obtain ⟨p, h₁, heq⟩ := argLoop_step fuel rs h ht hlen
    rw [heq]
    by_cases hmax : MAXARGS ≤ ws.length + 1
    · rw [if_pos hmax]
      exact Parses.panic
    rw [if_neg hmax]
    simp only [List.length_cons] at hfuel
    refine (parseredirs_sound fuel _ p ts h₁ (by omega)).bind ?_
    rintro r ⟨rs', us, hr⟩
    have htoks := hr.toks
    have hlt : us.length ≤ ts.length := by
      rw [htoks, List.length_append]
      exact Nat.le_add_left _ _
    rw [hr.tree, ← wrapAll_append]
    have hnext := ih (ws ++ [t]) (rs ++ rs') r.2 us hr.rest (by simp; omega) (by omega)
    rw [List.length_append, List.length_singleton] at hnext
    refine hnext.mono fun r' ⟨args, vs, ha⟩ => ⟨⟨t, rs'⟩ :: args, vs, ?_, ?_, ?_, ha.lt, ?_, ha.rest⟩
    · rw [htoks, ha.toks]
      simp [Arg.toks]
    · exact List.forall_mem_cons.mpr ⟨⟨ht, hr.ok⟩, ha.ok⟩
    · rw [ha.argc]
      simp
    · rw [ha.tree]
      simp

theorem last_redir (h : us = [] ∨ starts [BAR, RPAR, AMP, SEMI] us = true) :
    starts [LT, GT] us = false := by
  rcases h with rfl | h
  · rfl
  obtain _ | ⟨t, us⟩ := us
  · rfl
  refine Bool.eq_false_iff.mpr fun hr => ?_
  rcases starts_redir.mp hr with ht | ht | ht <;>
  · rw [starts_cons, ht] at h
    exact absurd h (by decide)

theorem argLoop_complete : ∀ (args : List Arg) fuel ws rs ps, Rest m s es ps (args.flatMap Arg.toks ++ us) →
    (∀ a ∈ args, a.Ok) → us = [] ∨ starts [BAR, RPAR, AMP, SEMI] us = true →
    ws.length + args.length < MAXARGS → (args.flatMap Arg.toks).length < fuel →
    ∃ p, argLoop m es fuel ws.length (wrapAll rs (execOf ws)) ps =
      .ok ((ws ++ args.map Arg.word).length,
        wrapAll (rs ++ args.flatMap Arg.redirs) (execOf (ws ++ args.map Arg.word)), p) ∧
      Rest m s es p us := by
  intro args
  induction args with
  | nil =>
    intro fuel ws rs ps h _ hus _ hfuel
    obtain ⟨fuel, rfl⟩ : ∃ f, fuel = f + 1 := ⟨fuel - 1, by omega⟩
    obtain ⟨p, heq, h₁⟩ := argLoop_stop fuel ws.length (wrapAll rs (execOf ws)) h hus
    exact ⟨p, by simpa using heq, h₁⟩
  | cons a args ih =>
    intro fuel ws rs ps h hargs hus hlen hfuel
    obtain ⟨fuel, rfl⟩ : ∃ f, fuel = f + 1 := ⟨fuel - 1, by omega⟩
    obtain ⟨⟨hword, hrs⟩, hargs⟩ := List.forall_mem_cons.mp hargs
    simp only [List.flatMap_cons, Arg.toks, List.length_append, List.length_cons, redirToks_length] at hfuel
    simp only [List.length_cons] at hlen
    have h' : Rest m s es ps (a.word :: (redirToks a.redirs ++ (args.flatMap Arg.toks ++ us))) := by
      simpa [Arg.toks] using h
    have hws : ws.length < MAXARGS := by omega
    obtain ⟨p, h₁, heq⟩ := argLoop_step fuel rs h' hword hws
    have hnext : starts [LT, GT] (args.flatMap Arg.toks ++ us) = false := by
      cases args with
      | nil => exact last_redir hus
      | cons b args =>
        exact starts_word (hargs b List.mem_cons_self).1 redir_symbols
    obtain ⟨p₂, hredirs, h₂⟩ := parseredirs_complete fuel a.redirs
      (wrapAll rs (execOf (ws ++ [a.word]))) p h₁ hrs hnext (by omega)
    rw [heq, if_neg (by omega), hredirs]
    obtain ⟨p₃, hloop, h₃⟩ := ih fuel (ws ++ [a.word]) (rs ++ a.redirs) p₂ h₂ hargs hus (by simp; omega)
      (by omega)
    refine ⟨p₃, ?_, h₃⟩
    rw [List.length_append, List.length_singleton, wrapAll_append] at hloop
    show argLoop m es fuel (ws.length + 1) (wrapAll a.redirs (wrapAll rs (execOf (ws ++ [a.word])))) p₂ = _
    rw [hloop]
    simp

/-- What a call of the parser for `S` has done. -/
def Parsed (m : ByteStore) (s es : ℕ) (S : Symbol) (ts : List Token) (r : cmd × ℕ) : Prop :=
  ∃ us vs, ts = us ++ vs ∧ Derives S us r.1 ∧ Rest m s es r.2 vs

/-- The parser for `S`, called with this fuel, finds a derivation or panics. -/
def Sound (m : ByteStore) (s es : ℕ) (S : Symbol) (call : ℕ → Except Stop (cmd × ℕ)) (rounds fuel : ℕ) :
    Prop :=
  ∀ ps ts, Rest m s es ps ts → 4 * ts.length + rounds ≤ fuel → Parses (call ps) (Parsed m s es S ts)

theorem parseline_sound (ihpipe : Sound m s es .pipe (parsepipe m es fuel) 3 fuel)
    (ihline : Sound m s es .line (parseline m es fuel) 4 fuel) :
    Sound m s es .line (parseline m es (fuel + 1)) 4 (fuel + 1) := by
  intro ps ts h hfuel
  rw [parseline]
  refine (ihpipe ps ts h (by omega)).bind ?_
  rintro r ⟨us, vs, hts, hus, h₁⟩
  obtain ⟨as, ws, rfl, has, hws⟩ := amps_split vs
  subst hts
  simp only [List.length_append] at hfuel
  obtain ⟨p, hback, h₂⟩ := backLoop_complete fuel as r.1 r.2 h₁ has hws (by omega)
  obtain ⟨p₁, hpeek, h₃⟩ := h₂.peek (one_symbols (by decide : strchr symbols SEMI = true))
  dsimp only
  rw [hback, run_ok]
  dsimp only
  rw [hpeek]
  dsimp only
  by_cases hmore : starts [SEMI] ws = true
  swap
  · rw [if_neg hmore]
    exact Parses.ok ⟨us ++ as, ws, by simp, .back hus has, h₃⟩
  rw [if_pos hmore]
  obtain _ | ⟨t, ws⟩ := ws
  · cases hmore
  have ht : t.ret = SEMI := (starts_one (by decide) (by decide)).mp hmore
  obtain ⟨p₂, hget, -, -, h₄⟩ := h₃.gettoken_cons
  rw [hget]
  simp only [List.length_cons] at hfuel
  refine (ihline p₂ ws h₄ (by omega)).bind ?_
  rintro r' ⟨us', vs', hts', hus', h₅⟩
  exact Parses.ok ⟨us ++ as ++ t :: us', vs', by simp [hts'], .list hus has ht hus', h₅⟩

theorem parsepipe_sound (ihexec : Sound m s es .exec (parseexec m es fuel) 2 fuel)
    (ihpipe : Sound m s es .pipe (parsepipe m es fuel) 3 fuel) :
    Sound m s es .pipe (parsepipe m es (fuel + 1)) 3 (fuel + 1) := by
  intro ps ts h hfuel
  rw [parsepipe]
  refine (ihexec ps ts h (by omega)).bind ?_
  rintro r ⟨us, vs, hts, hus, h₁⟩
  subst hts
  simp only [List.length_append] at hfuel
  obtain ⟨p₁, hpeek, h₃⟩ := h₁.peek (one_symbols (by decide : strchr symbols BAR = true))
  dsimp only
  rw [hpeek]
  dsimp only
  by_cases hmore : starts [BAR] vs = true
  swap
  · rw [if_neg hmore]
    exact Parses.ok ⟨us, vs, rfl, .exec hus, h₃⟩
  rw [if_pos hmore]
  obtain _ | ⟨t, vs⟩ := vs
  · cases hmore
  have ht : t.ret = BAR := (starts_one (by decide) (by decide)).mp hmore
  obtain ⟨p₂, hget, -, -, h₄⟩ := h₃.gettoken_cons
  rw [hget]
  simp only [List.length_cons] at hfuel
  refine (ihpipe p₂ vs h₄ (by omega)).bind ?_
  rintro r' ⟨us', vs', hts', hus', h₅⟩
  exact Parses.ok ⟨us ++ t :: us', vs', by simp [hts'], .pipe hus ht hus', h₅⟩

theorem parseexec_sound (ihblock : Sound m s es .exec (parseblock m es fuel) 1 fuel) :
    Sound m s es .exec (parseexec m es (fuel + 1)) 2 (fuel + 1) := by
  intro ps ts h hfuel
  obtain ⟨p₁, hpeek, h₁⟩ := h.peek (one_symbols (by decide : strchr symbols LPAR = true))
  rw [parseexec, hpeek]
  dsimp only
  by_cases hblock : starts [LPAR] ts = true
  · rw [if_pos hblock]
    exact ihblock p₁ ts h₁ (by omega)
  rw [if_neg hblock]
  refine (parseredirs_sound fuel _ p₁ ts h₁ (by omega)).bind ?_
  rintro r ⟨rs, us, hr⟩
  have hts := hr.toks
  subst hts
  simp only [List.length_append] at hfuel
  have htree : r.1 = wrapAll rs (execOf []) := hr.tree
  have hloop := argLoop_sound fuel [] rs r.2 us hr.rest (by decide) (by omega)
  rw [htree]
  refine hloop.bind ?_
  rintro r' ⟨args, vs, ha⟩
  have hlen : ([] ++ args.map Arg.word).length < MAXARGS := ha.argc ▸ ha.lt
  rw [ha.tree, ha.argc, setArg_last hlen]
  refine Parses.ok ⟨redirToks rs ++ args.flatMap Arg.toks, vs, by rw [ha.toks, List.append_assoc],
    ?_, ha.rest⟩
  rw [List.nil_append] at hlen ⊢
  exact .words hr.ok ha.ok (by simpa using hlen)

theorem parseblock_sound (ihline : Sound m s es .line (parseline m es fuel) 4 fuel) :
    Sound m s es .exec (parseblock m es (fuel + 1)) 1 (fuel + 1) := by
  intro ps ts h hfuel
  obtain ⟨p₁, hpeek, h₁⟩ := h.peek (one_symbols (by decide : strchr symbols LPAR = true))
  rw [parseblock, hpeek]
  dsimp only
  by_cases hfirst : starts [LPAR] ts = true
  swap
  · rw [Bool.eq_false_iff.mpr hfirst]
    exact Parses.panic
  rw [hfirst]
  obtain _ | ⟨l, ts⟩ := ts
  · cases hfirst
  have hl : l.ret = LPAR := (starts_one (by decide) (by decide)).mp hfirst
  obtain ⟨p₂, hget, -, -, h₂⟩ := h₁.gettoken_cons
  simp only [List.length_cons] at hfuel
  rw [hget]
  refine (ihline p₂ ts h₂ (by omega)).bind ?_
  rintro r ⟨us, vs, hts, hus, h₃⟩
  obtain ⟨p₃, hpeek', h₄⟩ := h₃.peek (one_symbols (by decide : strchr symbols RPAR = true))
  subst hts
  rw [hpeek']
  dsimp only
  by_cases hlast : starts [RPAR] vs = true
  swap
  · rw [Bool.eq_false_iff.mpr hlast]
    exact Parses.panic
  rw [hlast]
  obtain _ | ⟨t, vs⟩ := vs
  · cases hlast
  have ht : t.ret = RPAR := (starts_one (by decide) (by decide)).mp hlast
  obtain ⟨p₄, hget', -, -, h₅⟩ := h₄.gettoken_cons
  simp only [List.length_append, List.length_cons] at hfuel
  rw [hget']
  refine (parseredirs_sound fuel r.1 p₄ vs h₅ (by omega)).mono ?_
  rintro r' ⟨rs, ws, hr⟩
  refine ⟨l :: us ++ t :: redirToks rs, ws, by simp [hr.toks], ?_, hr.rest⟩
  rw [hr.tree]
  exact .block hl hus ht hr.ok

/-- **The parser finds a derivation or panics.** -/
theorem parse_sound : ∀ fuel, Sound m s es .line (parseline m es fuel) 4 fuel ∧
    Sound m s es .pipe (parsepipe m es fuel) 3 fuel ∧ Sound m s es .exec (parseexec m es fuel) 2 fuel ∧
    Sound m s es .exec (parseblock m es fuel) 1 fuel := by
  intro fuel
  induction fuel with
  | zero => exact ⟨fun _ _ _ h => by omega, fun _ _ _ h => by omega, fun _ _ _ h => by omega,
      fun _ _ _ h => by omega⟩
  | succ fuel ih =>
    obtain ⟨ihline, ihpipe, ihexec, ihblock⟩ := ih
    exact ⟨parseline_sound ihpipe ihline, parsepipe_sound ihexec ihpipe, parseexec_sound ihblock,
      parseblock_sound ihline⟩

/-! ## The parser finds the derivation that there is -/

/-- What may come behind the tokens of a symbol. -/
def Symbol.follow : Symbol → List UInt8
  | .line => [RPAR]
  | .pipe => [RPAR, AMP, SEMI]
  | .exec => [BAR, RPAR, AMP, SEMI]

def Follow (S : Symbol) (us : List Token) : Prop := us = [] ∨ starts S.follow us = true

def parse (m : ByteStore) (es : ℕ) : Symbol → ℕ → ℕ → Except Stop (cmd × ℕ)
  | .line => parseline m es
  | .pipe => parsepipe m es
  | .exec => parseexec m es

/-- The rounds that the tokens of a symbol need. -/
def Symbol.rounds : Symbol → ℕ
  | .line => 4
  | .pipe => 3
  | .exec => 2

theorem Follow.pipe (h : Follow .line us) : Follow .pipe us := by
  refine h.imp_right fun h => ?_
  obtain _ | ⟨t, us⟩ := us
  · cases h
  rw [starts_cons] at h ⊢
  simp only [Symbol.follow, strchr, List.contains_cons, List.contains_nil, Bool.or_false, Bool.or_eq_true,
    beq_iff_eq] at h ⊢
  exact Or.inl h

theorem Follow.exec (h : Follow .pipe us) : Follow .exec us := by
  refine h.imp_right fun h => ?_
  obtain _ | ⟨t, us⟩ := us
  · cases h
  rw [starts_cons] at h ⊢
  simp only [Symbol.follow, strchr, List.contains_cons, List.contains_nil, Bool.or_false, Bool.or_eq_true,
    beq_iff_eq] at h ⊢
  exact Or.inr h

theorem Follow.head {S : Symbol} (h : Follow S (t :: us)) : strchr S.follow t.ret = true := by
  have h := h.resolve_left (List.cons_ne_nil t us)
  rw [starts_cons, opener] at h
  by_cases hp : t.ret = PLUS
  · rw [if_pos hp] at h
    cases S <;> exact absurd h (by decide)
  · rwa [if_neg hp] at h

/-- A symbol that may not come here. -/
theorem Follow.not_starts {S : Symbol} {a : UInt8} (h : Follow S us) (ha : strchr S.follow a = false)
    (hg : a ≠ GT) (hp : a ≠ PLUS) : starts [a] us = false := by
  obtain _ | ⟨t, us⟩ := us
  · rfl
  refine Bool.eq_false_iff.mpr fun hc => ?_
  have hhead := h.head
  rw [(starts_one hg hp).mp hc, ha] at hhead
  cases hhead

theorem amps_follow {as : List Token} (has : ∀ t ∈ as, t.ret = AMP) (h : Follow .pipe us) :
    Follow .pipe (as ++ us) := by
  obtain _ | ⟨t, as⟩ := as
  · exact h
  · right
    rw [List.cons_append, starts_cons, has t List.mem_cons_self]
    decide

/-- A simple command does not start like a block. -/
theorem words_no_block (hrs : ∀ x ∈ rs, x.Ok) (hargs : ∀ a ∈ args, a.Ok) (hvs : Follow .exec vs) :
    starts [LPAR] (redirToks rs ++ (args.flatMap Arg.toks ++ vs)) = false := by
  obtain _ | ⟨r, rs⟩ := rs
  · obtain _ | ⟨a, args⟩ := args
    · exact hvs.not_starts (by decide) (by decide) (by decide)
    · exact starts_word (hargs a List.mem_cons_self).1 (one_symbols (by decide : strchr symbols LPAR = true))
  · have hop := (hrs r List.mem_cons_self).1
    refine Bool.eq_false_iff.mpr fun hc => ?_
    have ht : r.op.ret = LPAR := (starts_one (by decide) (by decide)).mp hc
    rw [ht] at hop
    exact absurd hop (by decide)

/-- The parser for `S` finds `c` in the tokens `us`, whatever may come behind them. -/
def Finds (m : ByteStore) (s es : ℕ) (S : Symbol) (us : List Token) (c : cmd) : Prop :=
  ∀ fuel ps vs, Rest m s es ps (us ++ vs) → Follow S vs → 4 * us.length + S.rounds ≤ fuel →
    ∃ p, parse m es S fuel ps = .ok (c, p) ∧ Rest m s es p vs

section

variable {l r : Token} {as : List Token}

theorem Finds.block (ih : Finds m s es .line us c) (hl : l.ret = LPAR) (hr : r.ret = RPAR)
    (hrs : ∀ x ∈ rs, x.Ok) : Finds m s es .exec (l :: us ++ r :: redirToks rs) (wrapAll rs c) := by
  intro fuel ps vs h hvs hfuel
  simp only [List.length_append, List.length_cons, redirToks_length, Symbol.rounds] at hfuel
  obtain ⟨fuel, rfl⟩ : ∃ f, fuel = f + 2 := ⟨fuel - 2, by omega⟩
  have h' : Rest m s es ps (l :: (us ++ (r :: (redirToks rs ++ vs)))) := by simpa using h
  obtain ⟨p₁, hpeek, h₁⟩ := h'.peek (one_symbols (by decide : strchr symbols LPAR = true))
  obtain ⟨p₂, hpeek', h₂⟩ := h₁.peek (one_symbols (by decide : strchr symbols LPAR = true))
  obtain ⟨p₃, hget, -, -, h₃⟩ := h₂.gettoken_cons
  have hl' : ∀ ts, starts [LPAR] (l :: ts) = true := fun ts => (starts_one (by decide) (by decide)).mpr hl
  have hr' : ∀ ts, starts [RPAR] (r :: ts) = true := fun ts => (starts_one (by decide) (by decide)).mpr hr
  obtain ⟨p₄, (hline : parseline m es fuel p₃ = _), h₄⟩ := ih fuel p₃ _ h₃ (Or.inr (hr' _)) (by
    simp only [Symbol.rounds]
    omega)
  obtain ⟨p₅, hpeek'', h₅⟩ := h₄.peek (one_symbols (by decide : strchr symbols RPAR = true))
  obtain ⟨p₆, hget', -, -, h₆⟩ := h₅.gettoken_cons
  obtain ⟨p₇, hredirs, h₇⟩ := parseredirs_complete fuel rs c p₆ h₆ hrs (last_redir hvs) (by omega)
  refine ⟨p₇, ?_, h₇⟩
  rw [parse, parseexec, hpeek]
  dsimp only
  rw [hl', if_pos rfl, parseblock, hpeek']
  dsimp only
  rw [hl', hget]
  change (parseline m es fuel p₃ >>= _) = _
  rw [hline, run_ok]
  dsimp only
  rw [hpeek'']
  dsimp only
  rw [hr', hget']
  exact hredirs

theorem finds_words (hrs : ∀ x ∈ rs, x.Ok) (hargs : ∀ a ∈ args, a.Ok) (hlen : args.length < MAXARGS) :
    Finds m s es .exec (redirToks rs ++ args.flatMap Arg.toks)
      (wrapAll (rs ++ args.flatMap Arg.redirs) (execOf (args.map Arg.word))) := by
  intro fuel ps vs h hvs hfuel
  simp only [List.length_append, redirToks_length, Symbol.rounds] at hfuel
  obtain ⟨fuel, rfl⟩ : ∃ f, fuel = f + 1 := ⟨fuel - 1, by omega⟩
  rw [List.append_assoc] at h
  obtain ⟨p₁, hpeek, h₁⟩ := h.peek (one_symbols (by decide : strchr symbols LPAR = true))
  have hredir : starts [LT, GT] (args.flatMap Arg.toks ++ vs) = false := by
    obtain _ | ⟨a, args⟩ := args
    · exact last_redir hvs
    · exact starts_word (hargs a List.mem_cons_self).1 redir_symbols
  obtain ⟨p₂, hredirs, h₂⟩ := parseredirs_complete fuel rs (execOf []) p₁ h₁ hrs hredir (by omega)
  obtain ⟨p₃, hloop, h₃⟩ := argLoop_complete args fuel [] rs p₂ h₂ hargs hvs (by simpa using hlen) (by omega)
  refine ⟨p₃, ?_, h₃⟩
  rw [parse, parseexec, hpeek]
  dsimp only
  rw [words_no_block hrs hargs hvs, if_neg Bool.false_ne_true]
  change (parseredirs m es fuel (execOf []) p₁ >>= _) = _
  rw [hredirs, run_ok]
  change (argLoop m es fuel ([] : List Token).length (wrapAll rs (execOf [])) p₂ >>= _) = _
  have hlen' : ([] ++ args.map Arg.word).length < MAXARGS := by simpa using hlen
  rw [hloop, run_ok]
  dsimp only
  rw [setArg_last hlen']
  rfl

theorem Finds.exec (ih : Finds m s es .exec us c) : Finds m s es .pipe us c := by
  intro fuel ps vs h hvs hfuel
  simp only [Symbol.rounds] at hfuel
  obtain ⟨fuel, rfl⟩ : ∃ f, fuel = f + 1 := ⟨fuel - 1, by omega⟩
  obtain ⟨p₁, (hexec : parseexec m es fuel ps = _), h₁⟩ := ih fuel ps vs h hvs.exec (by
    simp only [Symbol.rounds]
    omega)
  obtain ⟨p₂, hpeek, h₂⟩ := h₁.peek (one_symbols (by decide : strchr symbols BAR = true))
  refine ⟨p₂, ?_, h₂⟩
  change parsepipe m es (fuel + 1) ps = _
  rw [parsepipe, hexec, run_ok]
  dsimp only
  rw [hpeek, hvs.not_starts (by decide) (by decide) (by decide)]
  rfl

theorem Finds.pipe (ih : Finds m s es .exec us c) (ht : t.ret = BAR) (ih' : Finds m s es .pipe vs d) :
    Finds m s es .pipe (us ++ t :: vs) (.pipecmd c d) := by
  intro fuel ps ws h hws hfuel
  simp only [List.length_append, List.length_cons, Symbol.rounds] at hfuel
  obtain ⟨fuel, rfl⟩ : ∃ f, fuel = f + 1 := ⟨fuel - 1, by omega⟩
  have hbar : ∀ ts, starts [BAR] (t :: ts) = true := fun ts => (starts_one (by decide) (by decide)).mpr ht
  have hfollow : Follow .exec (t :: (vs ++ ws)) := Or.inr (by
    rw [starts_cons, ht]
    decide)
  obtain ⟨p₁, (hexec : parseexec m es fuel ps = _), h₁⟩ := ih fuel ps (t :: (vs ++ ws)) (by simpa using h)
    hfollow (by
      simp only [Symbol.rounds]
      omega)
  obtain ⟨p₂, hpeek, h₂⟩ := h₁.peek (one_symbols (by decide : strchr symbols BAR = true))
  obtain ⟨p₃, hget, -, -, h₃⟩ := h₂.gettoken_cons
  obtain ⟨p₄, (hpipe : parsepipe m es fuel p₃ = _), h₄⟩ := ih' fuel p₃ ws h₃ hws (by
    simp only [Symbol.rounds]
    omega)
  refine ⟨p₄, ?_, h₄⟩
  change parsepipe m es (fuel + 1) ps = _
  rw [parsepipe, hexec, run_ok]
  dsimp only
  rw [hpeek]
  dsimp only
  rw [hbar, if_pos rfl, hget]
  dsimp only
  rw [hpipe]
  rfl

theorem Finds.back (ih : Finds m s es .pipe us c) (has : ∀ t ∈ as, t.ret = AMP) :
    Finds m s es .line (us ++ as) (cmd.backcmd^[as.length] c) := by
  intro fuel ps vs h hvs hfuel
  simp only [List.length_append, Symbol.rounds] at hfuel
  obtain ⟨fuel, rfl⟩ : ∃ f, fuel = f + 1 := ⟨fuel - 1, by omega⟩
  obtain ⟨p₁, (hpipe : parsepipe m es fuel ps = _), h₁⟩ := ih fuel ps (as ++ vs) (by simpa using h)
    (amps_follow has hvs.pipe) (by
      simp only [Symbol.rounds]
      omega)
  obtain ⟨p₂, hback, h₂⟩ := backLoop_complete fuel as c p₁ h₁ has
    (hvs.not_starts (by decide) (by decide) (by decide)) (by omega)
  obtain ⟨p₃, hpeek, h₃⟩ := h₂.peek (one_symbols (by decide : strchr symbols SEMI = true))
  refine ⟨p₃, ?_, h₃⟩
  change parseline m es (fuel + 1) ps = _
  rw [parseline, hpipe, run_ok]
  dsimp only
  rw [hback, run_ok]
  dsimp only
  rw [hpeek, hvs.not_starts (by decide) (by decide) (by decide)]
  rfl

theorem Finds.list (ih : Finds m s es .pipe us c) (has : ∀ t ∈ as, t.ret = AMP) (ht : t.ret = SEMI)
    (ih' : Finds m s es .line vs d) :
    Finds m s es .line (us ++ as ++ t :: vs) (.listcmd (cmd.backcmd^[as.length] c) d) := by
  intro fuel ps ws h hws hfuel
  simp only [List.length_append, List.length_cons, Symbol.rounds] at hfuel
  obtain ⟨fuel, rfl⟩ : ∃ f, fuel = f + 1 := ⟨fuel - 1, by omega⟩
  have hsemi : ∀ ts, starts [SEMI] (t :: ts) = true := fun ts =>
    (starts_one (by decide) (by decide)).mpr ht
  have hfollow : Follow .pipe (t :: (vs ++ ws)) := Or.inr (by
    rw [starts_cons, ht]
    decide)
  obtain ⟨p₁, (hpipe : parsepipe m es fuel ps = _), h₁⟩ := ih fuel ps (as ++ t :: (vs ++ ws)) (by simpa using h)
    (amps_follow has hfollow) (by
      simp only [Symbol.rounds]
      omega)
  obtain ⟨p₂, hback, h₂⟩ := backLoop_complete fuel as c p₁ h₁ has (by
    rw [starts_cons, ht]
    decide) (by omega)
  obtain ⟨p₃, hpeek, h₃⟩ := h₂.peek (one_symbols (by decide : strchr symbols SEMI = true))
  obtain ⟨p₄, hget, -, -, h₄⟩ := h₃.gettoken_cons
  obtain ⟨p₅, (hline : parseline m es fuel p₄ = _), h₅⟩ := ih' fuel p₄ ws h₄ hws (by
    simp only [Symbol.rounds]
    omega)
  refine ⟨p₅, ?_, h₅⟩
  change parseline m es (fuel + 1) ps = _
  rw [parseline, hpipe, run_ok]
  dsimp only
  rw [hback, run_ok]
  dsimp only
  rw [hpeek]
  dsimp only
  rw [hsemi, if_pos rfl, hget]
  dsimp only
  rw [hline]
  rfl

end

/-- **The parser finds the derivation.** -/
theorem parse_complete {S : Symbol} (hd : Derives S us c) : Finds m s es S us c := by
  induction hd with
  | block hl _ hr hrs ih => exact ih.block hl hr hrs
  | words hrs hargs hlen => exact finds_words hrs hargs hlen
  | exec _ ih => exact ih.exec
  | pipe _ ht _ ih ih' => exact ih.pipe ht ih'
  | back _ has ih => exact ih.back has
  | list _ has ht _ ih ih' => exact ih.list has ht ih'

end Xv6.Sh
