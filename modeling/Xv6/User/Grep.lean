import Mathlib.Tactic.SplitIfs
import Xv6.Lib.ByteSeq
import Xv6.User.Ulib

/-!
# Grep — `grep.c`

A C string is the list of its characters before the NUL.  An address in `buf` is an offset.  `read` answers
with a piece of the stream that is no longer than asked for; `cut i` is where the piece of its call `i` ends
at the latest.
-/

namespace Xv6.Grep

/-- `'\n'`, `'$'`, `'*'`, `'.'` and `'^'`. -/
@[match_pattern] abbrev NEWLINE : UInt8 := 10
@[match_pattern] abbrev DOLLAR : UInt8 := 36
@[match_pattern] abbrev STAR : UInt8 := 42
@[match_pattern] abbrev DOT : UInt8 := 46
@[match_pattern] abbrev CARET : UInt8 := 94

mutual

def matchhere : List UInt8 → List UInt8 → Bool
  | [], _ => true
  | c :: STAR :: re, text => matchstar c re text
  | [DOLLAR], text => text.isEmpty
  | c :: re, x :: text => if c = DOT ∨ c = x then matchhere re text else false
  | _ :: _, [] => false
termination_by re text => (re.length, text.length, 0)

/-- The `do` loop. -/
def matchstar (c : UInt8) (re : List UInt8) (text : List UInt8) : Bool :=
  if matchhere re text then true
  else
    match text with
    | [] => false
    | x :: text => if x = c ∨ c = DOT then matchstar c re text else false
termination_by (re.length, text.length, 1)

end

/-- The `do` loop of `match`. -/
def matchLoop (re : List UInt8) : List UInt8 → Bool
  | [] => matchhere re []
  | x :: text => if matchhere re (x :: text) then true else matchLoop re text

def «match» : List UInt8 → List UInt8 → Bool
  | CARET :: re, text => matchhere re text
  | re, text => matchLoop re text

/-- `sizeof(buf)`. -/
abbrev BUFSIZE : ℕ := 1024

/-- The string at `p`. -/
def str (buf : ByteStore) (p : ℕ) : List UInt8 := (buf.window p (BUFSIZE - p)).takeWhile (· ≠ 0)

theorem strchr_str {buf : ByteStore} {p k : ℕ} {c : UInt8} (h : Ulib.strchr (str buf p) c = some k) :
    p + k < BUFSIZE := by
  obtain ⟨l, l', hs, hlen, -⟩ := Ulib.strchr_some h
  have hle : (str buf p).length ≤ (buf.window p (BUFSIZE - p)).length :=
    (List.takeWhile_prefix _).length_le
  rw [hs, ByteStore.length_window, List.length_append, List.length_cons] at hle
  omega

/-- `buf` and `p` in `grep`, with what has been written; each `write` is one list. -/
structure Scan where
  buf : ByteStore
  p : ℕ
  out : List (List UInt8)

/-- The loop over the lines in the buffer. -/
def lineLoop (pattern : List UInt8) (buf : ByteStore) (p : ℕ) (out : List (List UInt8)) : Scan :=
  match h : Ulib.strchr (str buf p) NEWLINE with
  | none => ⟨buf, p, out⟩
  | some k =>
    let q := p + k
    let buf := buf.blit q 1 fun _ => 0
    if «match» pattern (str buf p) then
      let buf := buf.blit q 1 fun _ => NEWLINE
      lineLoop pattern buf (q + 1) (out ++ [buf.window p (q + 1 - p)])
    else lineLoop pattern buf (q + 1) out
termination_by BUFSIZE - p
decreasing_by
  all_goals
    have hlt := strchr_str h
    omega

def read (cut : ℕ) (stream : List UInt8) (count : ℕ) : List UInt8 := stream.take (min cut count)

theorem drop_read {cut count : ℕ} {stream : List UInt8} (h : 0 < (read cut stream count).length) :
    (stream.drop (read cut stream count).length).length < stream.length := by
  have hle : (read cut stream count).length ≤ stream.length := List.length_take_le' _ _
  rw [List.length_drop]
  omega

/-- The loop over the calls of `read`, from call `i` on. -/
def grepLoop (pattern : List UInt8) (cut : ℕ → ℕ) (i : ℕ) (stream : List UInt8) (buf : ByteStore) (m : ℕ)
    (out : List (List UInt8)) : List (List UInt8) :=
  let piece := read (cut i) stream (BUFSIZE - m - 1)
  let n := piece.length
  if hn : 0 < n then
    let buf := buf.blit m n fun k => piece.getD k 0
    let m := m + n
    let buf := buf.blit m 1 fun _ => 0
    let s := lineLoop pattern buf 0 out
    if 0 < m then
      let m := m - s.p
      let buf := (Ulib.memmove s.buf 0 (UInt64.ofNat s.p) (Int32.ofNat m)).2
      grepLoop pattern cut (i + 1) (stream.drop n) buf m s.out
    else grepLoop pattern cut (i + 1) (stream.drop n) s.buf m s.out
  else out
termination_by stream.length
decreasing_by
  all_goals exact drop_read hn

def grep (pattern : List UInt8) (cut : ℕ → ℕ) (stream : List UInt8) (buf : ByteStore) : List (List UInt8) :=
  grepLoop pattern cut 0 stream buf 0 []

end Xv6.Grep
