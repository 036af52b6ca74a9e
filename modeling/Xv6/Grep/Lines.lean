import Xv6.Grep.Match
import Xv6.Lib.Lines
import Xv6.Mem.Memmove

/-!
# Lines — what `grep` writes

However `read` cuts the stream, `grep` writes the lines that match, up to the first line that does not fit
into its buffer: then the buffer is full, the next `read` asks for nothing, and its answer looks like the end
of the stream.
-/

namespace Xv6.Grep

open Lines

variable {pattern stream : List UInt8} {cut : ℕ → ℕ} {buf : ByteStore} {p e m i : ℕ}
  {out : List (List UInt8)}

/-- The lines of `ls` that match, as they are written. -/
def written (pattern : List UInt8) (ls : List (List UInt8)) : List (List UInt8) :=
  (ls.filter («match» pattern ·)).map (· ++ [NEWLINE])

/-- Lines that fit into the buffer with their newline and the NUL. -/
def fits (l : List UInt8) : Bool := l.length < BUFSIZE - 1

theorem str_eq (hpe : p ≤ e) (he : e < BUFSIZE) (h0 : (0 : UInt8) ∉ buf.window p (e - p)) (hend : buf e = 0) :
    str buf p = buf.window p (e - p) := by
  have hsplit : BUFSIZE - p = (e - p) + (1 + (BUFSIZE - e - 1)) := by omega
  rw [str, hsplit, ByteStore.window_add, ByteStore.window_add, ByteStore.window_one, Nat.add_sub_cancel' hpe,
    hend, List.takeWhile_append_of_pos fun x hx => ?_]
  · rw [List.singleton_append, List.takeWhile_cons, if_neg (by decide), List.append_nil]
  · exact decide_eq_true fun hx0 => h0 (hx0 ▸ hx)

/-- The lines `ls` at `p` have been written if they match; what stands behind them is at `s.p`. -/
structure Scanned (pattern : List UInt8) (buf : ByteStore) (p e : ℕ) (out ls : List (List UInt8))
    (s : Scan) : Prop where
  lines : ∀ l ∈ ls, NEWLINE ∉ l
  lo : p ≤ s.p
  hi : s.p ≤ e
  text : buf.window p (e - p) = ls.flatMap (· ++ [NEWLINE]) ++ s.buf.window s.p (e - s.p)
  rest : NEWLINE ∉ s.buf.window s.p (e - s.p)
  out : s.out = out ++ written pattern ls

/-- The first line, and those behind it. -/
theorem Scanned.cons {buf' : ByteStore} {l : List UInt8} {ls : List (List UInt8)} {s : Scan} {q : ℕ}
    (h : Scanned pattern buf' (q + 1) e (out ++ written pattern [l]) ls s) (hpq : p ≤ q) (hqe : q < e)
    (hl : buf.window p (q - p) = l) (hnl : NEWLINE ∉ l) (hq : buf q = NEWLINE)
    (hsame : ∀ x, q < x → buf' x = buf x) : Scanned pattern buf p e out (l :: ls) s := by
  refine ⟨List.forall_mem_cons.mpr ⟨hnl, h.lines⟩, by have := h.lo; omega, h.hi, ?_, h.rest, ?_⟩
  · have hsplit : e - p = (q - p) + (1 + (e - (q + 1))) := by omega
    have htext : buf.window (q + 1) (e - (q + 1)) = buf'.window (q + 1) (e - (q + 1)) :=
      ByteStore.window_congr fun i _ => (hsame _ (by omega)).symm
    rw [hsplit, ByteStore.window_add, ByteStore.window_add, ByteStore.window_one, Nat.add_sub_cancel' hpq, hl,
      hq, htext, h.text, List.flatMap_cons, List.append_assoc, List.append_assoc]
  · rw [h.out, List.append_assoc, written, written, ← List.map_append, ← List.filter_append, written]
    rfl

/-- **The lines in the buffer** are written if they match, and what stands behind the last one stays. -/
theorem lineLoop_spec (hpe : p ≤ e) (he : e < BUFSIZE) (h0 : (0 : UInt8) ∉ buf.window p (e - p))
    (hend : buf e = 0) : ∃ ls, Scanned pattern buf p e out ls (lineLoop pattern buf p out) := by
  induction hn : e - p using Nat.strong_induction_on generalizing buf p out with
  | _ n ih =>
    have hstr := str_eq hpe he h0 hend
    rw [lineLoop]
    split
    · next hnone =>
      rw [hstr] at hnone
      exact ⟨[], fun l hl => absurd hl List.not_mem_nil, le_rfl, hpe, rfl, Ulib.strchr_none hnone,
        (List.append_nil out).symm⟩
    · next k hsome =>
      rw [hstr] at hsome
      obtain ⟨l, l', hw, hk, hnl⟩ := Ulib.strchr_some hsome
      have hlen : k < e - p := by
        have := congrArg List.length hw
        rw [ByteStore.length_window, List.length_append, List.length_cons] at this
        omega
      have hsplit : e - p = k + (1 + (e - (p + k) - 1)) := by omega
      have hparts := hw
      rw [hsplit, ByteStore.window_add, ByteStore.window_add, ByteStore.window_one] at hparts
      obtain ⟨hl, hrest⟩ := List.append_inj hparts (by rw [ByteStore.length_window, hk])
      obtain ⟨hq, -⟩ := List.cons.inj hrest
      have hl' : buf.window p (p + k - p) = l := by rwa [Nat.add_sub_cancel_left]
      -- the newline is replaced by a NUL, and put back if the line matches
      have hcut : str (buf.blit (p + k) 1 fun _ => 0) p = l := by
        have hwin : (buf.blit (p + k) 1 fun _ => 0).window p (p + k - p) = l := by
          rw [← hl']
          exact ByteStore.window_congr fun i hi => ByteStore.blit_out (by omega)
        rw [str_eq (e := p + k) (by omega) (by omega) ?_ (ByteStore.blit_in le_rfl (by omega)), hwin]
        rw [hwin]
        exact fun hmem => h0 (hw ▸ List.mem_append_left _ hmem)
      have hnext : ∀ b : ByteStore, (∀ x, p + k < x → b x = buf x) →
          ∃ ls, Scanned pattern b (p + k + 1) e (out ++ written pattern [l]) ls
            (lineLoop pattern b (p + k + 1) (out ++ written pattern [l])) := fun b hb => by
        refine ih (e - (p + k + 1)) (by omega) (by omega) (fun hmem => h0 ?_) ((hb e (by omega)).trans hend) rfl
        obtain ⟨i, hi, hx⟩ := ByteStore.mem_window.mp hmem
        rw [hb _ (by omega)] at hx
        exact ByteStore.mem_window.mpr ⟨k + 1 + i, by omega, by rw [← hx]; congr 1; omega⟩
      dsimp only
      split_ifs with hm
      · rw [hcut] at hm
        have hwr : written pattern [l] =
            [((buf.blit (p + k) 1 fun _ => 0).blit (p + k) 1 fun _ => NEWLINE).window p (p + k + 1 - p)] := by
          rw [written, List.filter_cons, if_pos hm, List.filter_nil, List.map_singleton,
            show p + k + 1 - p = k + 1 by omega, ByteStore.window_add, ByteStore.window_one,
            ByteStore.blit_in le_rfl (by omega), ← hl', Nat.add_sub_cancel_left]
          congr 2
          exact ByteStore.window_congr fun i hi => by
            rw [ByteStore.blit_out (by omega), ByteStore.blit_out (by omega)]
        have hsame : ∀ x, p + k < x →
            ((buf.blit (p + k) 1 fun _ => 0).blit (p + k) 1 fun _ => NEWLINE) x = buf x := fun x hx => by
          rw [ByteStore.blit_out (by omega), ByteStore.blit_out (by omega)]
        obtain ⟨ls, hls⟩ := hnext _ hsame
        rw [← hwr]
        exact ⟨l :: ls, hls.cons (by omega) (by omega) hl' hnl hq hsame⟩
      · rw [hcut] at hm
        have hwr : written pattern [l] = [] := by
          rw [written, List.filter_cons, if_neg hm, List.filter_nil, List.map_nil]
        have hsame : ∀ x, p + k < x → (buf.blit (p + k) 1 fun _ => 0) x = buf x := fun x hx =>
          ByteStore.blit_out (by omega)
        obtain ⟨ls, hls⟩ := hnext _ hsame
        have hcons := hls.cons (by omega) (by omega) hl' hnl hq hsame
        rw [hwr, List.append_nil] at hcons
        exact ⟨l :: ls, hcons⟩

/-- The tail of the buffer is moved to its start. -/
theorem window_memmove (hpm : p ≤ e) (he : e < BUFSIZE) :
    (Ulib.memmove buf 0 (UInt64.ofNat p) (Int32.ofNat (e - p))).2.window 0 (e - p) = buf.window p (e - p) := by
  have hsize : BUFSIZE = 1024 := rfl
  have hp : (UInt64.ofNat p).toNat = p := UInt64.toNat_ofNat_of_lt' (by rw [UInt64.size]; omega)
  have hk : (Int32.ofNat (e - p)).toInt = (e - p : ℕ) := Int32.toInt_ofNat_of_lt (by omega)
  rw [Ulib.memmove_eq (by omega) (by rw [hk, UInt64.toNat_zero]; omega) (by rw [hk, hp]; omega), hk, hp,
    Int.toNat_natCast]
  exact ByteStore.window_congr (m := buf.blit 0 (e - p) fun i => buf (p + i)) fun i hi => ByteStore.blit_add hi

theorem written_append (ls ls' : List (List UInt8)) :
    written pattern (ls ++ ls') = written pattern ls ++ written pattern ls' := by
  rw [written, List.filter_append, List.map_append, written, written]

/-- The buffer with a piece behind what it had. -/
def filled (buf : ByteStore) (m : ℕ) (piece : List UInt8) : ByteStore :=
  (buf.blit m piece.length fun k => piece.getD k 0).blit (m + piece.length) 1 fun _ => 0

theorem window_filled {piece : List UInt8} :
    (filled buf m piece).window 0 (m + piece.length) = buf.window 0 m ++ piece := by
  rw [filled, ByteStore.window_add]
  congr 1
  · exact ByteStore.window_congr fun i hi => by
      rw [ByteStore.blit_out (by omega), ByteStore.blit_out (by omega)]
  · rw [Nat.zero_add]
    conv_rhs => rw [← ByteStore.window_list (m := buf) (a := m) (c := 0) piece]
    exact ByteStore.window_congr fun i hi => ByteStore.blit_out (by omega)

theorem read_append {c n : ℕ} : read c stream n ++ stream.drop (read c stream n).length = stream :=
  List.prefix_iff_eq_append.mp (List.take_prefix _ _)

/-- **Every call of `read`**: the buffer holds the start of a line. -/
theorem grepLoop_eq (hcut : ∀ i, 0 < cut i) (hm : m < BUFSIZE) (h0 : (0 : UInt8) ∉ buf.window 0 m ++ stream)
    (hnl : NEWLINE ∉ buf.window 0 m) :
    grepLoop pattern cut i stream buf m out =
      out ++ written pattern ((lines NEWLINE (buf.window 0 m ++ stream)).takeWhile fits) := by
  induction hn : stream.length using Nat.strong_induction_on generalizing stream buf m i out with
  | _ n ih =>
    have hcuti := hcut i
    have hlen : (read (cut i) stream (BUFSIZE - m - 1)).length =
        min (min (cut i) (BUFSIZE - m - 1)) stream.length := List.length_take
    have hsplit := @read_append stream (cut i) (BUFSIZE - m - 1)
    rw [grepLoop]
    dsimp only
    generalize read (cut i) stream (BUFSIZE - m - 1) = piece at *
    split_ifs with hpos hm'
    · rw [← filled]
      have hwin := @window_filled buf m piece
      have h0' : (0 : UInt8) ∉ (filled buf m piece).window 0 (m + piece.length) ++ stream.drop piece.length := by
        rwa [hwin, List.append_assoc, hsplit]
      obtain ⟨ls, hls⟩ := @lineLoop_spec pattern (filled buf m piece) 0 (m + piece.length) out (Nat.zero_le _)
        (by omega) (fun hmem => h0' (List.mem_append_left _ hmem)) (ByteStore.blit_in le_rfl (by omega))
      generalize lineLoop pattern (filled buf m piece) 0 out = s at *
      have hmove := @window_memmove s.buf s.p (m + piece.length) hls.hi (by omega)
      have htext := hls.text
      rw [Nat.sub_zero, ← hmove] at htext
      have hfits : ∀ l ∈ ls, fits l = true := fun l hl => by
        have hlt := @Lines.length_lt_flatMap _ NEWLINE l ls hl
        have hle := congrArg List.length htext
        rw [ByteStore.length_window, List.length_append] at hle
        exact decide_eq_true (by omega)
      have htotal : buf.window 0 m ++ stream = ls.flatMap (· ++ [NEWLINE]) ++
          ((Ulib.memmove s.buf 0 (UInt64.ofNat s.p) (Int32.ofNat (m + piece.length - s.p))).2.window 0
            (m + piece.length - s.p) ++ stream.drop piece.length) := by
        rw [← List.append_assoc, ← htext, hwin, List.append_assoc, hsplit]
      rw [ih _ (by rw [← hn, List.length_drop]; omega) (by omega) ?_ (by rw [hmove]; exact hls.rest) rfl, hls.out,
        List.append_assoc, ← written_append, htotal, lines_append hls.lines,
        List.takeWhile_append_of_pos hfits]
      rw [htext, List.append_assoc] at h0'
      exact fun hmem => h0' (List.mem_append_right _ hmem)
    · omega
    · suffices h : (lines NEWLINE (buf.window 0 m ++ stream)).takeWhile fits = [] by
        rw [h]
        exact (List.append_nil out).symm
      by_cases hs : stream = []
      · rw [hs, List.append_nil, lines_none hnl, List.takeWhile_nil]
      · have hspos := List.length_pos_iff.mpr hs
        exact takeWhile_lines hnl (by rw [ByteStore.length_window]; omega)

/-- **What `grep` writes** does not depend on how the stream arrives. -/
theorem grep_eq (hcut : ∀ i, 0 < cut i) (h0 : (0 : UInt8) ∉ stream) :
    grep pattern cut stream buf = written pattern ((lines NEWLINE stream).takeWhile fits) :=
  grepLoop_eq hcut (by decide) h0 List.not_mem_nil

/-- **`grep` writes the lines that match** just if none of them stands behind a line that does not fit, or is
one. -/
theorem grep_lines_iff (hcut : ∀ i, 0 < cut i) (h0 : (0 : UInt8) ∉ stream) :
    grep pattern cut stream buf = written pattern (lines NEWLINE stream) ↔
      ∀ l ∈ (lines NEWLINE stream).dropWhile fits, «match» pattern l = false := by
  rw [grep_eq hcut h0, written, written, (List.map_injective_iff.mpr (List.append_left_injective _)).eq_iff,
    filter_takeWhile]

theorem match_a : «match» [97] [97] = true := by
  have hhere : matchhere [97] [97] = true := by
    rw [matchhere]
    · rw [if_pos (Or.inr rfl), matchhere]
    · exact fun _ h => absurd h (List.cons_ne_nil _ _).symm
    · exact fun h => absurd h (by decide)
  change matchLoop [97] [97] = true
  rw [matchLoop, if_pos hhere]

theorem grep_lines_iff_short : grep [97] (fun _ => 1) [97, NEWLINE] (fun _ => 0) = [[97, NEWLINE]] := by
  have hlines : lines NEWLINE [97, NEWLINE] = [[97]] := by decide
  have hall : ∀ l ∈ (lines NEWLINE [97, NEWLINE]).dropWhile fits, «match» [97] l = false := fun l hl => by
    rw [hlines, show [[97]].dropWhile fits = [] by decide] at hl
    exact absurd hl List.not_mem_nil
  rw [(grep_lines_iff (fun _ => Nat.one_pos) (by decide)).mpr hall, hlines, written, List.filter_cons,
    if_pos match_a]
  rfl

/-- A line of 1023 characters, and a line `a` that matches. -/
def longLine : List UInt8 := List.replicate 1023 98 ++ NEWLINE :: [97, NEWLINE]

theorem grep_longLine : grep [97] (fun _ => 512) longLine (fun _ => 0) = [] ∧
    [97, NEWLINE] ∈ written [97] (lines NEWLINE longLine) := by
  have hnl : NEWLINE ∉ List.replicate 1023 98 := fun h => absurd (List.eq_of_mem_replicate h) (by decide)
  have h0 : (0 : UInt8) ∉ longLine := fun h => by
    rcases List.mem_append.mp h with h | h
    · exact absurd (List.eq_of_mem_replicate h) (by decide)
    · exact absurd h (by decide)
  constructor
  · have hnone : (lines NEWLINE (List.replicate 1023 98 ++ NEWLINE :: [97, NEWLINE])).takeWhile fits = [] :=
      takeWhile_lines hnl (List.length_replicate).ge
    rw [grep_eq (fun _ => by decide) h0, longLine, hnone]
    rfl
  · rw [longLine, lines_cons hnl]
    have hmem : [97] ∈ List.replicate 1023 98 :: lines NEWLINE [97, NEWLINE] :=
      List.mem_cons_of_mem _ (by decide)
    exact List.mem_map.mpr ⟨[97], List.mem_filter.mpr ⟨hmem, match_a⟩, rfl⟩

end Xv6.Grep
