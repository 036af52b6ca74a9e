import Mathlib.Data.List.FinRange
import Mathlib.Data.Set.Basic
import Xv6.Lib.ByteSeq
import Xv6.Shell.Grammar

/-!
# Command — `parsecmd` and the strings of a command

`names` are the strings that a tree points to.  `nulterminate` writes a zero behind each of them, which is
never in a word, so that they are the words of the command.
-/

namespace Xv6.Sh

/-- The starts and the ends of the arguments from `i` on, up to the null pointer. -/
def argNames (argv eargv : Fin MAXARGS → Option ℕ) : ℕ → ℕ → List (ℕ × ℕ)
  | 0, _ => []
  | n + 1, i =>
    if h : i < MAXARGS then
      match argv ⟨i, h⟩, eargv ⟨i, h⟩ with
      | some q, some eq => (q, eq) :: argNames argv eargv n (i + 1)
      | _, _ => []
    else []

/-- The starts and the ends of the arguments and of the files. -/
def names : cmd → List (ℕ × ℕ)
  | .execcmd argv eargv => argNames argv eargv MAXARGS 0
  | .redircmd cmd file efile _ _ => names cmd ++ [(file, efile)]
  | .pipecmd left right => names left ++ names right
  | .listcmd left right => names left ++ names right
  | .backcmd cmd => names cmd

/-- There is a zero behind each name, and nothing else has changed. -/
def Ended (ns : List (ℕ × ℕ)) (m m' : ByteStore) : Prop :=
  ∀ x, m' x = if x ∈ ns.map Prod.snd then 0 else m x

variable {m m' m'' : ByteStore} {s es ps fuel : ℕ} {t : Token} {ts us ws : List Token} {c : cmd}
  {rs : List Redir} {ns ns' : List (ℕ × ℕ)} {p : ℕ × ℕ}

theorem Ended.nil : Ended [] m m := fun _ => rfl

theorem Ended.append (h : Ended ns m m') (h' : Ended ns' m' m'') : Ended (ns ++ ns') m m'' := by
  intro x
  rw [h' x, h x, List.map_append]
  by_cases h1 : x ∈ ns'.map Prod.snd
  · rw [if_pos h1, if_pos (List.mem_append_right _ h1)]
  · rw [if_neg h1]
    by_cases h2 : x ∈ ns.map Prod.snd
    · rw [if_pos h2, if_pos (List.mem_append_left _ h2)]
    · rw [if_neg h2, if_neg fun hm => (List.mem_append.mp hm).elim h2 h1]

theorem Ended.one {q e : ℕ} : Ended [(q, e)] m (Function.update m e 0) := by
  intro x
  by_cases hx : x = e
  · subst hx
    simp
  · rw [Function.update_of_ne hx, if_neg (by simpa using hx)]

/-! ## `nulterminate` -/

def Token.name (t : Token) : ℕ × ℕ := (t.q, t.eq)

theorem argNames_execOf (hlen : ws.length < MAXARGS) : ∀ n i, i ≤ ws.length → ws.length < n + i →
    argNames (fun i => ws[i.val]?.map Token.q) (fun i => ws[i.val]?.map Token.eq) n i =
      (ws.drop i).map Token.name := by
  intro n
  induction n with
  | zero => intro i hi hn; omega
  | succ n ih =>
    intro i hi hn
    rw [argNames, dif_pos (by omega)]
    rcases hi.eq_or_lt with rfl | hlt
    · simp
    · rw [List.drop_eq_getElem_cons hlt]
      simp only [List.getElem?_eq_getElem hlt, Option.map_some, List.map_cons]
      rw [ih (i + 1) hlt (by omega)]
      rfl

theorem endArgs_execOf (hlen : ws.length < MAXARGS) : ∀ n i m, i ≤ ws.length → ws.length < n + i →
    ∃ m', endArgs (fun i => ws[i.val]?.map Token.q) (fun i => ws[i.val]?.map Token.eq) n i m = .ok m' ∧
      Ended ((ws.drop i).map Token.name) m m' := by
  intro n
  induction n with
  | zero => intro i m hi hn; omega
  | succ n ih =>
    intro i m hi hn
    rw [endArgs, dif_pos (by omega)]
    rcases hi.eq_or_lt with rfl | hlt
    · simp only [List.getElem?_eq_none le_rfl, Option.map_none, List.drop_length, List.map_nil]
      exact ⟨m, rfl, Ended.nil⟩
    · rw [List.drop_eq_getElem_cons hlt]
      simp only [List.getElem?_eq_getElem hlt, Option.map_some, List.map_cons]
      obtain ⟨m', heq, hm'⟩ := ih (i + 1) (Function.update m ws[i].eq 0) hlt (by omega)
      exact ⟨m', heq, Ended.one.append hm'⟩

/-- The words of a list of tokens. -/
def wordNames (ts : List Token) : List (ℕ × ℕ) := (ts.filter fun t => t.ret = WORD).map Token.name

/-- What `nulterminate` does to a tree whose names are those of the words `ts`. -/
def Ends (ts : List Token) (c : cmd) : Prop :=
  (names c).Perm (wordNames ts) ∧ ∀ m, ∃ m', nulterminate c m = .ok m' ∧ Ended (names c) m m'

theorem wordNames_append : wordNames (us ++ ts) = wordNames us ++ wordNames ts := by
  rw [wordNames, List.filter_append, List.map_append]
  rfl

theorem wordNames_cons_of_ne (h : t.ret ≠ WORD) : wordNames (t :: ts) = wordNames ts := by
  simp [wordNames, h]

theorem wordNames_cons (h : t.ret = WORD) : wordNames (t :: ts) = t.name :: wordNames ts := by
  simp [wordNames, h]

theorem Ends.execOf (hws : ∀ t ∈ ws, t.ret = WORD) (hlen : ws.length < MAXARGS) : Ends ws (execOf ws) := by
  have hnames : names (Sh.execOf ws) = ws.map Token.name := by
    have h := argNames_execOf hlen MAXARGS 0 (Nat.zero_le _) hlen
    rwa [List.drop_zero] at h
  constructor
  · rw [hnames, wordNames, List.filter_eq_self.mpr fun t ht => decide_eq_true (hws t ht)]
  · intro m
    rw [hnames]
    obtain ⟨m', heq, hm'⟩ := endArgs_execOf hlen (MAXARGS + 1) 0 m (Nat.zero_le _) (by omega)
    exact ⟨m', heq, by rwa [List.drop_zero] at hm'⟩

theorem Ends.wrap {r : Redir} (h : Ends us c) (hr : r.Ok) : Ends (us ++ r.toks) (r.wrap c) := by
  have hop : r.op.ret ≠ WORD := by
    rcases hr.1 with h | h | h <;> rw [h] <;> decide
  have hwords : wordNames (us ++ r.toks) = wordNames us ++ [(r.file.q, r.file.eq)] := by
    rw [wordNames_append, Redir.toks, wordNames_cons_of_ne hop, wordNames_cons hr.2]
    rfl
  have hnode : ∀ mode fd, Ends (us ++ r.toks) (.redircmd c r.file.q r.file.eq mode fd) := by
    intro mode fd
    refine ⟨?_, fun m => ?_⟩
    · rw [hwords]
      exact h.1.append_right _
    · obtain ⟨m', heq, hm'⟩ := h.2 m
      refine ⟨Function.update m' r.file.eq 0, ?_, hm'.append Ended.one⟩
      rw [nulterminate, heq]
      rfl
  unfold Redir.wrap
  split
  · exact hnode _ _
  · split
    · exact hnode _ _
    · exact hnode _ _

theorem Ends.wrapAll (h : Ends us c) (hrs : ∀ r ∈ rs, r.Ok) :
    Ends (us ++ redirToks rs) (wrapAll rs c) := by
  induction rs generalizing us c with
  | nil =>
    rw [redirToks, List.flatMap_nil, List.append_nil]
    exact h
  | cons r rs ih =>
    obtain ⟨hr, hrs⟩ := List.forall_mem_cons.mp hrs
    have hnext := ih (h.wrap hr) hrs
    rwa [List.append_assoc] at hnext

theorem Ends.both {d : cmd} (node : cmd → cmd → cmd) (h : Ends us c) (h' : Ends ts d)
    (hnames : names (node c d) = names c ++ names d)
    (hnul : ∀ m, nulterminate (node c d) m = nulterminate c m >>= nulterminate d) :
    Ends (us ++ ts) (node c d) := by
  refine ⟨?_, fun m => ?_⟩
  · rw [hnames, wordNames_append]
    exact h.1.append h'.1
  · obtain ⟨m₁, heq, hm₁⟩ := h.2 m
    obtain ⟨m₂, heq', hm₂⟩ := h'.2 m₁
    refine ⟨m₂, ?_, ?_⟩
    · rw [hnul, heq, run_ok, heq']
    · rw [hnames]
      exact hm₁.append hm₂

theorem Ends.backs (h : Ends us c) (n : ℕ) : Ends us (cmd.backcmd^[n] c) := by
  induction n generalizing c with
  | zero => exact h
  | succ n ih => exact ih h

theorem Ends.congr (h : Ends us c) (hw : (wordNames us).Perm (wordNames ts)) : Ends ts c :=
  ⟨h.1.trans hw, h.2⟩

theorem wordNames_perm (h : us.Perm ts) : (wordNames us).Perm (wordNames ts) := (h.filter _).map _

/-- The words and the redirections of an `execcmd`, in another order. -/
theorem args_perm (args : List Arg) :
    (args.map Arg.word ++ redirToks (args.flatMap Arg.redirs)).Perm (args.flatMap Arg.toks) := by
  induction args with
  | nil => exact List.Perm.refl _
  | cons a args ih =>
    have hredirs : redirToks ((a :: args).flatMap Arg.redirs) =
        redirToks a.redirs ++ redirToks (args.flatMap Arg.redirs) := by
      simp [redirToks]
    have hswap : (args.map Arg.word ++ (redirToks a.redirs ++ redirToks (args.flatMap Arg.redirs))).Perm
        (redirToks a.redirs ++ (args.map Arg.word ++ redirToks (args.flatMap Arg.redirs))) := by
      rw [← List.append_assoc, ← List.append_assoc]
      exact List.perm_append_comm.append_right _
    rw [hredirs, List.map_cons, List.flatMap_cons, Arg.toks]
    exact (hswap.trans (ih.append_left _)).cons _

theorem wordNames_amps {as : List Token} (has : ∀ t ∈ as, t.ret = AMP) : wordNames as = [] := by
  rw [wordNames, List.map_eq_nil_iff, List.filter_eq_nil_iff]
  intro t ht hw
  rw [has t ht] at hw
  exact absurd hw (by decide)

/-- **`nulterminate` ends the words of the command.** -/
theorem Derives.ends {S : Symbol} (h : Derives S us c) : Ends us c := by
  induction h with
  | @block l r us c rs hl _ hr hrs ih =>
    have hl' : l.ret ≠ WORD := by
      rw [hl]
      decide
    have hr' : r.ret ≠ WORD := by
      rw [hr]
      decide
    refine (ih.wrapAll hrs).congr (List.Perm.of_eq ?_)
    rw [List.cons_append, wordNames_cons_of_ne hl', wordNames_append, wordNames_append,
      wordNames_cons_of_ne hr']
  | @words rs args hrs hargs hlen =>
    have hwords : ∀ t ∈ args.map Arg.word, t.ret = WORD := by
      intro t ht
      obtain ⟨a, ha, rfl⟩ := List.mem_map.mp ht
      exact (hargs a ha).1
    have hredirs : ∀ r ∈ rs ++ args.flatMap Arg.redirs, r.Ok := by
      intro r hr
      rcases List.mem_append.mp hr with hr | hr
      · exact hrs r hr
      · obtain ⟨a, ha, hr⟩ := List.mem_flatMap.mp hr
        exact (hargs a ha).2 r hr
    refine ((Ends.execOf hwords (by simpa using hlen)).wrapAll hredirs).congr (wordNames_perm ?_)
    have happ : redirToks (rs ++ args.flatMap Arg.redirs) =
        redirToks rs ++ redirToks (args.flatMap Arg.redirs) := by
      simp [redirToks]
    rw [happ, ← List.append_assoc]
    refine (List.perm_append_comm.append_right _).trans ?_
    rw [List.append_assoc]
    exact (args_perm args).append_left _
  | exec _ ih => exact ih
  | @pipe t us vs c d _ ht _ ih ih' =>
    have ht' : t.ret ≠ WORD := by
      rw [ht]
      decide
    refine (ih.both .pipecmd ih' rfl fun m => rfl).congr (List.Perm.of_eq ?_)
    rw [wordNames_append, wordNames_append, wordNames_cons_of_ne ht']
  | @back us as c _ has ih =>
    refine (ih.backs as.length).congr (List.Perm.of_eq ?_)
    rw [wordNames_append, wordNames_amps has, List.append_nil]
  | @list t us as vs c d _ has ht _ ih ih' =>
    have ht' : t.ret ≠ WORD := by
      rw [ht]
      decide
    refine ((ih.backs as.length).both .listcmd ih' rfl fun m => rfl).congr (List.Perm.of_eq ?_)
    rw [wordNames_append, wordNames_append, wordNames_append, wordNames_cons_of_ne ht', wordNames_amps has,
      List.append_nil]

/-! ## `parsecmd` -/

theorem Rest.tokenOk (h : Rest m s es ps ts) : ∀ t ∈ ts, TokenOk m es t ∧ s ≤ t.q := by
  induction ts generalizing ps with
  | nil => simp
  | cons t ts ih =>
    obtain ⟨p, -, ht, hq, h₁⟩ := h.gettoken_cons
    have hge : ps ≤ skipWhite m es ps := le_skipWhite
    have hs := h.ge
    exact List.forall_mem_cons.mpr ⟨⟨ht, by omega⟩, ih h₁⟩

theorem tokensFrom_length (n ps : ℕ) : (tokensFrom m es n ps).length ≤ n := by
  induction n generalizing ps with
  | zero => exact le_rfl
  | succ n ih =>
    rw [tokensFrom_succ]
    split
    · exact Nat.zero_le _
    · exact Nat.succ_le_succ (ih _)

theorem strend_eq (hs : m.IsStr s es) (hfuel : es - s ≤ fuel) : strend m fuel s = es := by
  have hle : s ≤ es := hs.le
  have hge : s ≤ strend m fuel s := ByteStore.le_skip
  rcases lt_trichotomy (strend m fuel s) es with h | h | h
  · have hlt : m.skip (fun c => decide (c ≠ 0)) fuel s < s + fuel := by
      unfold strend at h
      omega
    have hstop : (fun c : UInt8 => decide (c ≠ 0)) (m (strend m fuel s)) = false :=
      ByteStore.skip_stop hlt
    exact absurd (of_decide_eq_false hstop) (not_not_intro (hs.ne _ hge h))
  · exact h
  · have hall : (fun c : UInt8 => decide (c ≠ 0)) (m es) = true := ByteStore.skip_all hle h
    exact absurd hs.nul (of_decide_eq_true hall)

/-- The pointer is at the end if and only if no token is left. -/
theorem Rest.peek_end (h : Rest m s es ps ts) : (Sh.peek m es ps []).2 = es ↔ ts = [] := by
  constructor
  · intro hp
    obtain _ | ⟨t, ts⟩ := ts
    · rfl
    · obtain ⟨p, -, ht, hq, -⟩ := h.gettoken_cons
      have hlt := ht.lt
      have hle := ht.le
      have hpe : skipWhite m es ps = es := hp
      omega
  · rintro rfl
    exact h.gettoken_nil.2

/-- A word is a string after `nulterminate`, and it has its bytes. -/
theorem word_isStr (hts : ∀ t ∈ ts, TokenOk m es t ∧ s ≤ t.q) (hs : m.IsStr s es)
    (hns : ns.Perm (wordNames ts)) (hm' : Ended ns m m') (hp : p ∈ ns) :
    s ≤ p.1 ∧ p.1 < p.2 ∧ p.2 ≤ es ∧ m'.IsStr p.1 p.2 ∧
      m'.window p.1 (p.2 - p.1) = m.window p.1 (p.2 - p.1) := by
  have hword : ∀ q ∈ ns, ∃ t ∈ ts, t.ret = WORD ∧ t.name = q := by
    intro q hq
    obtain ⟨t, ht, rfl⟩ := List.mem_map.mp (hns.mem_iff.mp hq)
    obtain ⟨ht, hw⟩ := List.mem_filter.mp ht
    exact ⟨t, ht, of_decide_eq_true hw, rfl⟩
  obtain ⟨t, ht, hw, rfl⟩ := hword p hp
  obtain ⟨hok, hq⟩ := hts t ht
  have hlt := hok.lt
  have hle := hok.le
  -- a byte of a word is not behind a word
  have hsame : ∀ x, t.q ≤ x → x < t.eq → m' x = m x := by
    intro x hx hxe
    rw [hm' x, if_neg]
    intro hmem
    obtain ⟨q, hq, rfl⟩ := List.mem_map.mp hmem
    obtain ⟨t', ht', hw', rfl⟩ := hword q hq
    have hplain := hok.word hw _ hx hxe
    rw [show t'.name.2 = t'.eq from rfl, (hts t' ht').1.stop hw'] at hplain
    cases hplain
  refine ⟨hq, hlt, hle, ⟨hlt.le, ?_, fun x hx hxe => ?_⟩, ByteStore.window_congr fun i hi => ?_⟩
  · rw [hm' _, if_pos (List.mem_map_of_mem hp)]
  · rw [hsame x hx hxe]
    exact hs.ne x (hq.trans hx) (lt_of_lt_of_le hxe hle)
  · change i < t.eq - t.q at hi
    exact hsame (t.q + i) (Nat.le_add_right _ _) (by omega)

/-- **The shell parser accepts exactly its grammar.**  `parsecmd` returns or panics.  It returns a tree if and
only if it is that of a derivation for the tokens of the string.  The names of the tree are the words of the
string; `nulterminate` has written a zero behind each, and nothing else. -/
theorem parsecmd_grammar (hs : m.IsStr s es) (hfuel : 4 * (es - s) + 4 ≤ fuel) :
    ((∃ r, parsecmd fuel m s = .ok r) ∨ ∃ msg, parsecmd fuel m s = .error (.panic msg)) ∧
    (∀ c, (∃ m', parsecmd fuel m s = .ok (c, m')) ↔ Derives .line (tokens m es s) c) ∧
    ∀ c m', parsecmd fuel m s = .ok (c, m') →
      (names c).Perm (wordNames (tokens m es s)) ∧
      (∀ p ∈ names c, s ≤ p.1 ∧ p.1 < p.2 ∧ p.2 ≤ es ∧ m'.IsStr p.1 p.2 ∧
        m'.window p.1 (p.2 - p.1) = m.window p.1 (p.2 - p.1)) ∧
      ∀ x, m' x = if x ∈ (names c).map Prod.snd then 0 else m x := by
  have h := Rest.start hs
  have hlen : (tokens m es s).length ≤ es - s := tokensFrom_length _ _
  have hend : strend m fuel s = es := strend_eq hs (by omega)
  -- the parser takes all tokens, or there is an error
  have hrun : parsecmd fuel m s = (parseline m es fuel s >>= fun r =>
      if (peek m es r.2 []).2 ≠ es then .error (.panic "syntax")
      else nulterminate r.1 m >>= fun m' => .ok (r.1, m')) := by
    rw [parsecmd, hend]
  have hok : ∀ c p, Derives .line (tokens m es s) c → Rest m s es p [] →
      parseline m es fuel s = .ok (c, p) → ∃ m', parsecmd fuel m s = .ok (c, m') ∧ Ended (names c) m m' := by
    intro c p hd hp hline
    obtain ⟨m', hnul, hm'⟩ := hd.ends.2 m
    refine ⟨m', ?_, hm'⟩
    rw [hrun, hline, run_ok, if_neg (not_not_intro (hp.peek_end.mpr rfl)), hnul]
    rfl
  have hcases : (∃ c m', Derives .line (tokens m es s) c ∧ parsecmd fuel m s = .ok (c, m') ∧
      Ended (names c) m m') ∨ ∃ msg, parsecmd fuel m s = .error (.panic msg) := by
    rcases (parse_sound fuel).1 s _ h (by omega) with ⟨⟨c, p⟩, hline, us, vs, hts, hd, hp⟩ | ⟨msg, hline⟩
    · by_cases hvs : vs = []
      · subst hvs
        rw [List.append_nil] at hts
        rw [← hts] at hd
        obtain ⟨m', heq, hm'⟩ := hok c p hd hp hline
        exact Or.inl ⟨c, m', hd, heq, hm'⟩
      · right
        rw [hrun, hline, run_ok, if_pos fun he => hvs (hp.peek_end.mp he)]
        exact ⟨_, rfl⟩
    · right
      rw [hrun, hline]
      exact ⟨msg, rfl⟩
  refine ⟨?_, fun c => ⟨?_, fun hd => ?_⟩, fun c m' heq => ?_⟩
  · rcases hcases with ⟨c, m', -, heq, -⟩ | hmsg
    · exact Or.inl ⟨_, heq⟩
    · exact Or.inr hmsg
  · rintro ⟨m', heq⟩
    rcases hcases with ⟨c', m'', hd, heq', -⟩ | ⟨msg, heq'⟩
    · rw [heq] at heq'
      cases heq'
      exact hd
    · rw [heq] at heq'
      cases heq'
  · obtain ⟨p, hline, hp⟩ := parse_complete hd fuel s [] (by simpa using h) (Or.inl rfl) (by
      simp only [Symbol.rounds]
      omega)
    obtain ⟨m', heq, -⟩ := hok c p hd hp hline
    exact ⟨m', heq⟩
  · rcases hcases with ⟨c', m'', hd, heq', hm'⟩ | ⟨msg, heq'⟩
    · rw [heq] at heq'
      cases heq'
      exact ⟨hd.ends.1, fun p hp => word_isStr h.tokenOk hs hd.ends.1 hm' hp, hm'⟩
    · rw [heq] at heq'
      cases heq'

/-- The command `a|b>c`, at address 0. -/
def pipeLine : ByteStore := fun x => [97, 124, 98, 62, 99].getD x 0

/-- A pipe, with a redirection on its right. -/
theorem parsecmd_grammar_pipe : ∃ m', parsecmd 24 pipeLine 0 =
      .ok (.pipecmd (execOf [⟨WORD, 0, 1⟩])
        (.redircmd (execOf [⟨WORD, 2, 3⟩]) 4 5 (O_WRONLY ||| O_CREATE ||| O_TRUNC) 1), m') ∧
    m'.window 0 6 = [97, 0, 98, 0, 99, 0] := by
  have hs : pipeLine.IsStr 0 5 := ⟨by decide, rfl, by decide⟩
  have htoks : tokens pipeLine 5 0 =
      [⟨WORD, 0, 1⟩, ⟨BAR, 1, 2⟩, ⟨WORD, 2, 3⟩, ⟨GT, 3, 4⟩, ⟨WORD, 4, 5⟩] := rfl
  obtain ⟨-, hiff, hnames⟩ := parsecmd_grammar hs (by decide : 4 * (5 - 0) + 4 ≤ 24)
  rw [htoks] at hiff
  have ha : Derives .exec [⟨WORD, 0, 1⟩] (execOf [⟨WORD, 0, 1⟩]) :=
    @Derives.words [] [⟨⟨WORD, 0, 1⟩, []⟩] (by simp) (by simp [Arg.Ok]) (by decide)
  have hb : Derives .exec [⟨WORD, 2, 3⟩, ⟨GT, 3, 4⟩, ⟨WORD, 4, 5⟩]
      (.redircmd (execOf [⟨WORD, 2, 3⟩]) 4 5 (O_WRONLY ||| O_CREATE ||| O_TRUNC) 1) :=
    @Derives.words [] [⟨⟨WORD, 2, 3⟩, [⟨⟨GT, 3, 4⟩, ⟨WORD, 4, 5⟩⟩]⟩] (by simp) (by simp [Arg.Ok, Redir.Ok])
      (by decide)
  have hline := Derives.back (ha.pipe (t := ⟨BAR, 1, 2⟩) rfl (.exec hb))
    (by simp : ∀ t ∈ ([] : List Token), t.ret = AMP)
  obtain ⟨m', heq⟩ := (hiff _).mpr hline
  have hm' : m' = fun x => if x ∈ [1, 3, 5] then 0 else pipeLine x := funext (hnames _ m' heq).2.2
  exact ⟨m', heq, by rw [hm']; rfl⟩

end Xv6.Sh
