import Cashpack.Decoder.Write

/-!
# Writing where there is room

What the functions that fill the working buffer of a decoder do as long as there is room left in
it: the octets are added at the end, and nothing is moved.

## Main results

* `hpdCat_eq`, `hpdPuts_eq` : octets, or a string of the tables, are added.
-/

namespace Cashpack

open Prog

variable {hp : Hpack} {n : ℕ} {s : Octets}

/-- The working buffer ends in the one of the call, with room for `n` octets. -/
structure Hpack.Room (n : ℕ) (hp : Hpack) : Prop where
  start : hp.ctx.arg.buf ≤ hp.ctx.org + hp.ctx.out.length
  stop : hp.ctx.org + hp.ctx.out.length + hp.ctx.bufLen ≤ hp.ctx.arg.buf + hp.ctx.arg.bufLen
  left : n ≤ hp.ctx.bufLen

namespace Hpack.Room

theorem mono (h : hp.Room n) {m : ℕ} (hle : m ≤ n) : hp.Room m :=
  ⟨h.start, h.stop, hle.trans h.left⟩

/-- Only the buffer matters. -/
theorem congr (h : hp.Room n) {hp' : Hpack} (harg : hp'.ctx.arg = hp.ctx.arg)
    (horg : hp'.ctx.org = hp.ctx.org) (hout : hp'.ctx.out = hp.ctx.out)
    (hlen : hp'.ctx.bufLen = hp.ctx.bufLen) : hp'.Room n where
  start := by rw [harg, horg, hout]; exact h.start
  stop := by rw [harg, horg, hout, hlen]; exact h.stop
  left := hlen ▸ h.left

theorem write (h : hp.Room (s.length + n)) : (hp.write s).Room n := by
  obtain ⟨hstart, hstop, hleft⟩ := h
  refine ⟨?_, ?_, ?_⟩
  · show hp.ctx.arg.buf ≤ hp.ctx.org + (hp.ctx.out ++ s).length
    rw [List.length_append]
    omega
  · show hp.ctx.org + (hp.ctx.out ++ s).length + (hp.ctx.bufLen - s.length) ≤ _
    rw [List.length_append]
    show _ ≤ hp.ctx.arg.buf + hp.ctx.arg.bufLen
    omega
  · show n ≤ hp.ctx.bufLen - s.length
    omega

end Hpack.Room

theorem Hpack.write_write (hp : Hpack) (s t : Octets) :
    (hp.write s).write t = hp.write (s ++ t) := by
  simp only [Hpack.write, List.append_assoc, List.length_append, Nat.sub_sub]

@[simp] theorem Hpack.write_nil (hp : Hpack) : hp.write [] = hp := by
  simp only [Hpack.write, List.append_nil, List.length_nil, Nat.sub_zero]

theorem hpdCat_eq (h : hp.Room s.length) : hpdCat s hp = .ok () (hp.write s) := by
  have hskip : hpdSkip s.length hp = .ok () hp := by
    rw [hpdSkip, bind_apply, get_apply, Out.bind_ok, ite_run, if_pos h.left, pure_apply]
  have hin : hp.ctx.arg.buf ≤ hp.ctx.org + hp.ctx.out.length ∧
      hp.ctx.org + hp.ctx.out.length + s.length ≤ hp.ctx.arg.buf + hp.ctx.arg.bufLen := by
    obtain ⟨hstart, hstop, hleft⟩ := h
    omega
  rw [hpdCat, bind_apply, hskip, Out.bind_ok, hpdWrite, if_pos hin]
  rfl

theorem hpdPutc_eq (c : UInt8) (h : hp.Room 1) : hpdPutc c hp = .ok () (hp.write [c]) :=
  hpdCat_eq (s := [c]) h

/-- A string of the tables is copied with its terminator. -/
theorem hpdPuts_eq {p : Ptr} (hlast : p.Lasting) (hs : hp.str p s.length = some (s, 0))
    (h : hp.Room (s.length + 1)) : hpdPuts p s.length hp = .ok () (hp.write (s ++ [0])) := by
  have h₁ : p ≠ .unknownName := by
    rintro rfl
    exact hlast
  have h₂ : p ≠ .unknownValue := by
    rintro rfl
    exact hlast
  rw [hpdPuts, bind_apply, get_apply, Out.bind_ok, ite_run, if_neg h₁, ite_run, if_neg h₂,
    bind_apply, readStr_eq hs, Out.bind_ok]
  dsimp only
  rw [assert_bind_pos rfl]
  exact hpdCat_eq (h.mono (by simp))

end Cashpack
