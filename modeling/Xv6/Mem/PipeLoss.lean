import Xv6.Kernel.PipeRead
import Xv6.Lib.Ring
import Xv6.Mem.Transfer

/-!
# PipeLoss — what a read into a bad buffer takes from a pipe

A byte leaves the ring before `copyout` is tried.  So a read takes exactly the bytes that it delivers if
and only if all bytes it tries can be written.
-/

namespace Xv6

/-- The pipe holds the bytes `q`. -/
def Pipe.Has (pi : Pipe) (q : List UInt8) : Prop :=
  ∃ n, Ring.Holds PIPESIZE (2 ^ 32) pi.data pi.nread pi.nwrite n q

namespace Pipe

variable {pi : Pipe} {q q' : List UInt8}

theorem Has.eq_iff (h : pi.Has q) : pi.nread = pi.nwrite ↔ q = [] := by
  obtain ⟨n, h⟩ := h
  exact h.eq_iff (by decide)

/-- The contents of a pipe are determined. -/
theorem Has.length_eq (h : pi.Has q) (h' : pi.Has q') : q.length = q'.length := by
  obtain ⟨n, h⟩ := h
  obtain ⟨n', h'⟩ := h'
  rw [← h.ahead (by decide), h'.ahead (by decide)]

theorem Has.get {x : UInt8} (h : pi.Has (x :: q)) : pi.get.1 = x ∧ pi.get.2.Has q := by
  obtain ⟨n, h⟩ := h
  obtain ⟨hx, hpop⟩ := h.pop (by decide)
  exact ⟨hx, n + 1, hpop⟩

end Pipe

section

variable [Image] {s s' : Phys} {r addr : ℕ} {T K X : Multiset ℕ} {lf lf' : ℕ → Pte} {pi pi' : Pipe}
  {q : List UInt8}

/-- `copyout` of one byte. -/
theorem copyout_byte (a : ℕ) (ch : UInt8) (h : Space s r T lf K X) :
    (¬ (UserPage lf a ∧ ((lf (a / 4096)).has PTE_COW = true → s.freelist ≠ [])) ∧
      copyout r a (fun _ => ch) 1 s = .ok (-1, s)) ∨
    (UserPage lf a ∧ ((lf (a / 4096)).has PTE_COW = true → s.freelist ≠ []) ∧
      ∃ t lf', Ready s t r T lf lf' K X (a / 4096) ∧
        Wrote s (t.memmove (PTE2PA (lf' (a / 4096)) + a % 4096) 1 fun _ => ch) r T lf lf' K X a 1
          (fun _ => ch) ∧
        copyout r a (fun _ => ch) 1 s =
          .ok (0, t.memmove (PTE2PA (lf' (a / 4096)) + a % 4096) 1 fun _ => ch)) := by
  have hmin : min (4096 - a % 4096) 1 = 1 := by omega
  unfold copyout
  rcases copyout_round 0 a 1 (fun _ => ch) h one_ne_zero with ⟨hno, hx⟩ | ⟨hp, hfree, t, lf', hr, hx⟩
  · rw [hx]
    exact Or.inl ⟨hno, rfl⟩
  · rw [hmin] at hx
    rw [hx]
    have hW : Wrote s _ r T lf lf' K X (a / 4096 * 4096 + a % 4096) 1 fun _ => ch :=
      page_write hr (h.lt_upages hp) hp.2.1 hp.2.2 (by omega) one_pos
    rw [Nat.div_add_mod'] at hW
    exact Or.inr ⟨hp, hfree, t, lf', hr, hW, rfl⟩

theorem Wrote.congr {dstva n : ℕ} {src src' : ℕ → UInt8} (h : Wrote s s' r T lf lf' K X dstva n src)
    (hsrc : ∀ k < n, src' k = src k) : Wrote s s' r T lf lf' K X dstva n src' := by
  refine ⟨h.space, h.poked, h.user, fun a ha hV => ?_, h.only, h.outside, h.own⟩
  rw [h.byte a ha hV]
  split_ifs with hin
  · rw [hsrc _ (by omega)]
  · rfl

/-- **The copy loop of `piperead`** delivers the first bytes of the pipe up to the first one that cannot
be written, which it has taken as well. -/
theorem pipereadCopy_spec (left i : ℕ) (h : Space s r T lf K X) (hq : pi.Has q) (haddr : addr + i < 2 ^ 64) :
    ∃ k pi' s' lf', pipereadCopy r addr left i pi s = .ok (i + k, pi', s') ∧
      Wrote s s' r T lf lf' K X (addr + i) k (fun k => q.getD k 0) ∧
      (Writable s.freelist.length lf (leafRefs UPAGES lf + X) (addr + i) (min left q.length) →
        k = min left q.length ∧ pi'.Has (q.drop k)) ∧
      (¬ Writable s.freelist.length lf (leafRefs UPAGES lf + X) (addr + i) (min left q.length) →
        k < min left q.length ∧ pi'.Has (q.drop (k + 1))) := by
  induction left generalizing i pi s lf q with
  | zero =>
    rw [Nat.zero_min]
    exact ⟨0, pi, s, lf, rfl, Wrote.refl h _ _, fun _ => ⟨rfl, hq⟩, fun hno => absurd writable_zero hno⟩
  | succ left ih =>
    rw [pipereadCopy]
    cases q with
    | nil =>
      rw [if_pos (hq.eq_iff.mpr rfl), List.length_nil, Nat.min_zero]
      exact ⟨0, pi, s, lf, rfl, Wrote.refl h _ _, fun _ => ⟨rfl, hq⟩, fun hno => absurd writable_zero hno⟩
    | cons x q =>
      have hne : ¬ pi.nread = pi.nwrite := fun he => List.cons_ne_nil _ _ (hq.eq_iff.mp he)
      obtain ⟨hx, hget⟩ := hq.get
      have hmin : min (left + 1) (x :: q).length = min left q.length + 1 := by
        rw [List.length_cons]
        omega
      rw [if_neg hne, hmin, show uint64 (addr + i) = addr + i from Nat.mod_eq_of_lt haddr]
      dsimp only
      rcases copyout_byte (addr + i) pi.get.1 h with ⟨hno, hc⟩ | ⟨hp, hfree, t, lf₁, hr, hW, hc⟩
      · -- the byte has left the pipe
        rw [hc]
        refine ⟨0, pi.get.2, s, lf, rfl, Wrote.refl h _ _, fun hw => absurd (hw.head (by omega)) ?_,
          fun _ => ⟨by omega, hget⟩⟩
        exact fun hh => hno ⟨hh.1, fun hC => List.length_pos_iff.mp (hh.2 hC)⟩
      · have hlt : addr + (i + 1) < 2 ^ 64 := by
          have := hp.1
          simp only [MAXVA] at this
          omega
        rw [hc]
        obtain ⟨k, pi', s', lf', heq, hW', hyes, hno⟩ := ih (i + 1) hW.space hget hlt
        have hiff := hr.writable_iff h hp hfree one_pos (show 1 ≤ min left q.length + 1 by omega)
          (by omega)
        rw [Nat.add_sub_cancel, Nat.add_assoc] at hiff
        rw [hiff]
        refine ⟨1 + k, pi', s', lf', ?_, ?_, fun hw => ?_, fun hw => ?_⟩
        · rw [← Nat.add_assoc]
          exact heq
        · refine Wrote.append (hW.congr fun k hk => ?_) (hW'.congr fun k _ => ?_)
          · obtain rfl : k = 0 := by omega
            exact hx.symm
          · rw [Nat.add_comm 1 k, List.getD_cons_succ]
        · obtain ⟨hk, hhas⟩ := hyes hw
          rw [Nat.add_comm 1 k]
          exact ⟨by omega, hhas⟩
        · obtain ⟨hk, hhas⟩ := hno hw
          rw [Nat.add_comm 1 k]
          exact ⟨by omega, hhas⟩

/-- A read that has returned `n` has taken the first `n` bytes of the pipe (none if it has failed), has
delivered them to the user addresses from `addr` on, and leaves the following bytes to the next reader. -/
structure Lossless (s' : Phys) (pagetable addr : ℕ) (q : List UInt8) (n : ℤ) (pi' : Pipe) : Prop where
  rest : pi'.Has (q.drop n.toNat)
  delivered : ∀ k < n.toNat, q[k]? = some (byteOf pagetable (addr + k) s')

/-- **`piperead` loses no byte if and only if** every byte that it tries to deliver can be written; else
it takes one byte more from the pipe than it delivers. -/
theorem piperead_lossless_iff (killed : Bool) (n : ℤ) (h : Space s r T lf K X) (hq : pi.Has q)
    (haddr : addr < 2 ^ 64) :
    ∃ e pi' s', pipereadUser killed r addr n pi s = .ok (e, pi', s') ∧
      ∀ k, e = .ret k →
        (Lossless s' r addr q k pi' ↔
          Writable s.freelist.length lf (leafRefs UPAGES lf + X) addr (min n.toNat q.length)) ∧
        (¬ Lossless s' r addr q k pi' → pi'.Has (q.drop (k.toNat + 1)) ∧
          ∀ j < k.toNat, q[j]? = some (byteOf r (addr + j) s')) := by
  unfold pipereadUser
  by_cases hwait : pi.nread = pi.nwrite ∧ pi.writeopen = true
  · rw [if_pos hwait]
    obtain rfl := hq.eq_iff.mp hwait.1
    cases killed with
    | false => exact ⟨.sleep, pi, s, rfl, fun k hk => nomatch hk⟩
    | true =>
      have hless : Lossless s r addr [] (-1) pi := ⟨hq, fun k hk => absurd hk (Nat.not_lt_zero k)⟩
      refine ⟨.ret (-1), pi, s, rfl, fun k hk => ?_⟩
      cases hk
      rw [List.length_nil, Nat.min_zero]
      exact ⟨⟨fun _ => writable_zero, fun _ => hless⟩, fun hno => absurd hless hno⟩
  · rw [if_neg hwait]
    obtain ⟨k, pi', s', lf', heq, hW, hyes, hno⟩ := pipereadCopy_spec n.toNat 0 h hq haddr
    rw [Nat.zero_add] at heq
    rw [Nat.add_zero] at hW hyes hno
    rw [heq]
    refine ⟨.ret k, pi', s', rfl, fun _ he => ?_⟩
    cases he
    have hle : k ≤ q.length := by
      by_cases hw : Writable s.freelist.length lf (leafRefs UPAGES lf + X) addr (min n.toNat q.length)
      · have := (hyes hw).1
        omega
      · have := (hno hw).1
        omega
    have hdel : ∀ j < k, q[j]? = some (byteOf r (addr + j) s') := by
      intro j hj
      obtain ⟨hv, hV, -⟩ := hW.user (addr + j) (by omega) (by omega)
      have hbyte := hW.byte (addr + j) hv hV
      rw [if_pos (by omega), Nat.add_sub_cancel_left] at hbyte
      have hva : addr + j < MAXVA := by
        simp only [UPAGES, TRAPFRAME, TRAMPOLINE, MAXVA, PGSIZE] at hv ⊢
        omega
      have hget : byteOf r (addr + j) s' = q.getD j 0 := by
        rw [← hbyte, byteOf, pteOf_spec hW.space.tree hva]
        rfl
      rw [hget, List.getD_eq_getElem?_getD, List.getElem?_eq_getElem (by omega), Option.getD_some]
    by_cases hw : Writable s.freelist.length lf (leafRefs UPAGES lf + X) addr (min n.toNat q.length)
    · have hless : Lossless s' r addr q k pi' := ⟨(hyes hw).2, hdel⟩
      exact ⟨⟨fun _ => hw, fun _ => hless⟩, fun hno => absurd hless hno⟩
    · obtain ⟨hlt, hhas⟩ := hno hw
      refine ⟨⟨fun hless => ?_, fun h => absurd h hw⟩, fun _ => ⟨hhas, hdel⟩⟩
      -- the pipe cannot hold both what was left to read and one byte less
      have hlen := hless.rest.length_eq hhas
      rw [List.length_drop, List.length_drop, Int.toNat_natCast] at hlen
      omega

end

/-- A pipe with two bytes. -/
def twoBytes : Pipe := ((Pipe.alloc fun _ => 0).put 1).put 2

theorem twoBytes_has : twoBytes.Has [1, 2] := by
  have h0 : Ring.Holds PIPESIZE (2 ^ 32) (fun _ => (0 : UInt8)) 0 0 0 [] := Ring.Holds.empty
  exact ⟨0, (h0.push (by decide) (by decide)).push (by decide) (by decide)⟩

/-- A read of two bytes to `addr` returns `k` and empties the pipe; the byte at `addr` is in a page that
user code can write to. -/
def takesBoth [Image] (addr : ℕ) (k : ℤ) : Except Panic (Option (ℕ × Phys)) → Bool
  | .ok (some (r, s)) => match pipereadUser false r addr 2 twoBytes s with
    | .ok (.ret k', pi, _) => k' == k && pi.nread == pi.nwrite && (pteOf r addr s).has PTE_V &&
        (pteOf r addr s).has PTE_U && !(pteOf r addr s).has PTE_COW
    | _ => false
  | _ => false

theorem takesBoth_spec [Image] {addr : ℕ} {k : ℤ} {x : Except Panic (Option (ℕ × Phys))}
    (h : takesBoth addr k x = true) : ∃ r s pi s', x = .ok (some (r, s)) ∧
      pipereadUser false r addr 2 twoBytes s = .ok (.ret k, pi, s') ∧ pi.nread = pi.nwrite ∧
      (pteOf r addr s).has PTE_V = true ∧ (pteOf r addr s).has PTE_U = true ∧
      (pteOf r addr s).has PTE_COW = false := by
  obtain e | _ | ⟨r, s⟩ := x
  · cases h
  · cases h
  · unfold takesBoth at h
    dsimp only at h
    split at h
    · rename_i k' pi s' heq
      simp only [Bool.and_eq_true, beq_iff_eq, Bool.not_eq_true'] at h
      obtain ⟨⟨⟨⟨rfl, hpi⟩, hV⟩, hU⟩, hC⟩ := h
      exact ⟨r, s, pi, s', rfl, heq, hpi, hV, hU, hC⟩
    · cases h

theorem takesBoth_inside : @takesBoth smallImage 4094 2 (@grown smallImage 4096) = true := by
  decide +kernel

theorem takesBoth_across : @takesBoth smallImage 4095 1 (@grown smallImage 4096) = true := by
  decide +kernel

/-- Two bytes at the end of the only page. -/
theorem piperead_lossless_page : ∃ r s pi s', @grown smallImage 4096 = .ok (some (r, s)) ∧
    @pipereadUser smallImage false r 4094 2 twoBytes s = .ok (.ret 2, pi, s') ∧
      Lossless s' r 4094 [1, 2] 2 pi := by
  let _ := smallImage
  obtain ⟨r, s, pi, s', hg, heq, -, hV, hU, hC⟩ := takesBoth_spec takesBoth_inside
  have hS := (grown_heap (by decide) hg).space
  obtain ⟨e, pi₁, s₁, heq₁, hall⟩ := piperead_lossless_iff false 2 hS twoBytes_has
    (by decide : 4094 < 2 ^ 64)
  rw [heq] at heq₁
  cases heq₁
  rw [pteOf_spec hS.tree (by decide)] at hV hU hC
  exact ⟨r, s, pi, s', hg, heq,
    (hall 2 rfl).1.mpr (Writable.of_page ⟨by decide, hV, hU⟩ hC (by decide))⟩

/-- Two bytes of which only the first fits in the page: the read returns `1`, and both are gone. -/
theorem piperead_loses_byte : ∃ r s pi s', @grown smallImage 4096 = .ok (some (r, s)) ∧
    @pipereadUser smallImage false r 4095 2 twoBytes s = .ok (.ret 1, pi, s') ∧
      pi.nread = pi.nwrite ∧ ¬ Lossless s' r 4095 [1, 2] 1 pi := by
  obtain ⟨r, s, pi, s', hg, heq, hpi, -⟩ := @takesBoth_spec smallImage _ _ _ takesBoth_across
  refine ⟨r, s, pi, s', hg, heq, hpi, fun hless => ?_⟩
  exact List.cons_ne_nil _ _ (hless.rest.eq_iff.mp hpi)

end Xv6
