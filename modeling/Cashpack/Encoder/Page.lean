import Cashpack.Encoder.Sending

/-!
# The working buffer of an encoder

What is written to the working buffer, and where it then stands.  A buffer is sent when it is full,
so that its length follows the number of octets written: `Buffered hp bs hp'` says that `bs` was
written, and that nothing but the buffer and the log has changed.

## Main results

* `pages_hpePuts`, `pages_hpiEncode` : octets that are put one by one.
* `buffered_hpeBcat` : a string that is copied at once, if the end of the buffer does not cut it.
-/

namespace Cashpack

open Prog

variable {hp hp' hp'' : Hpack} {bs cs : Octets} {x y : Cp Unit}

/-- These octets were put in the working buffer, which is sent whenever it is full. -/
structure Buffered (hp : Hpack) (bs : Octets) (hp' : Hpack) : Prop where
  frame : hp' = { hp with ctx.log := hp'.ctx.log, ctx.cur := hp'.ctx.cur }
  sent : hp'.sent = hp.sent ++ bs
  page : hp'.ctx.cur.length = (hp.ctx.cur.length + bs.length) % hp.ctx.arg.bufLen

theorem Buffered.arg (h : Buffered hp bs hp') : hp'.ctx.arg = hp.ctx.arg := by rw [h.frame]

theorem Buffered.table (h : Buffered hp bs hp') : hp'.toTable = hp.toTable := by rw [h.frame]

theorem Buffered.keeps_open (h : Buffered hp bs hp') (ho : hp.Open) : hp'.Open where
  room := by
    rw [h.page, h.arg]
    exact Nat.mod_lt _ (by have := ho.room; omega)
  fits := by
    rw [h.frame]
    exact ho.fits

theorem Buffered.refl (ho : hp.Open) : Buffered hp [] hp where
  frame := rfl
  sent := (List.append_nil _).symm
  page := (Nat.mod_eq_of_lt ho.room).symm

theorem Buffered.trans (h : Buffered hp bs hp') (h' : Buffered hp' cs hp'') :
    Buffered hp (bs ++ cs) hp'' where
  frame := by
    rw [h'.frame, h.frame]
  sent := by rw [h'.sent, h.sent, List.append_assoc]
  page := by
    rw [h'.page, h.page, h.arg, Nat.mod_add_mod, List.length_append, Nat.add_assoc]

/-- Events that send nothing. -/
theorem Buffered.notify (ho : hp.Open) (evts : List Event) (hq : Quiet evts) :
    Buffered hp [] (hp.notify evts) where
  frame := rfl
  sent := by
    have hlog : (hp.notify evts).ctx.log = hp.ctx.log ++ evts :=
      if_neg (by rw [ho.fits]; exact Bool.false_ne_true)
    have hnil : evts.flatMap Event.sent = [] := List.flatMap_eq_nil_iff.2 hq
    show (hp.notify evts).ctx.log.flatMap Event.sent ++ hp.ctx.cur = _
    rw [hlog, List.flatMap_append, hnil, List.append_nil, List.append_nil]
    rfl
  page := (Nat.mod_eq_of_lt ho.room).symm

/-- On an open buffer, `x` writes these octets. -/
def Pages (x : Cp Unit) (bs : Octets) : Prop :=
  ∀ hp : Hpack, hp.Open → ∃ hp', x hp = .ok () hp' ∧ Buffered hp bs hp'

theorem Pages.nil : Pages (pure ()) [] := fun hp ho => ⟨hp, rfl, .refl ho⟩

theorem Pages.bind (hx : Pages x bs) (hy : Pages y cs) : Pages (do x; y) (bs ++ cs) := by
  intro hp ho
  obtain ⟨hp', hrun, hput⟩ := hx hp ho
  obtain ⟨hp'', hrun', hput'⟩ := hy hp' (hput.keeps_open ho)
  refine ⟨hp'', ?_, hput.trans hput'⟩
  rw [bind_apply, hrun, Out.bind_ok, hrun']

/-- The buffer is sent when it is full, once octets were put in it. -/
theorem buffered_hpeFlush (ho : hp.Open) (hle : hp.ctx.cur.length + bs.length ≤ hp.ctx.arg.bufLen) :
    ∃ hp', hpeFlush { hp with ctx.cur := hp.ctx.cur ++ bs } = .ok () hp' ∧ Buffered hp bs hp' := by
  have hlen : (hp.ctx.cur ++ bs).length = hp.ctx.cur.length + bs.length := List.length_append
  rw [hpeFlush, bind_apply, get_apply, Out.bind_ok, when_apply]
  by_cases hfull : (hp.ctx.cur ++ bs).length = hp.ctx.arg.bufLen
  · have hne : hp.ctx.cur ++ bs ≠ [] := by
      intro hc
      have hroom := ho.room
      rw [hc] at hfull
      simp only [List.length_nil] at hfull
      omega
    have hfits : ({ hp with ctx.cur := hp.ctx.cur ++ bs } : Hpack).ctx.tooBig = false := ho.fits
    have hrun := hpeSend_run hfits
    rw [Hpack.flushed, if_neg hne] at hrun
    rw [if_pos hfull]
    refine ⟨_, hrun, rfl, ?_, ?_⟩
    · simp [Hpack.sent, Event.sent]
    · rw [← hlen, hfull, Nat.mod_self]
      rfl
  · rw [if_neg hfull]
    refine ⟨_, rfl, rfl, (List.append_assoc _ _ _).symm, ?_⟩
    rw [Nat.mod_eq_of_lt (by omega)]
    exact hlen

theorem pages_hpePutb (b : UInt8) : Pages (hpePutb b) [b] := by
  intro hp ho
  rw [hpePutb, bind_apply, get_apply, Out.bind_ok, assert_bind_pos ho.room, bind_apply,
    modify_apply, Out.bind_ok]
  exact buffered_hpeFlush ho ho.room

theorem pages_hpePuts (bs : Octets) : Pages (hpePuts bs) bs := by
  induction bs with
  | nil => exact .nil
  | cons b bs ih => exact (pages_hpePutb b).bind ih

theorem pages_hpiEncode (p : Hpp) {n : ℕ} (hn : n ≤ uint16Max) :
    Pages (hpiEncode p n) (hpiOctets p n) := by
  intro hp ho
  rw [hpiEncode, bind_apply, get_apply, Out.bind_ok, assert_bind_pos ho.room,
    Nat.mod_eq_of_lt (show n < 65536 from Nat.lt_succ_of_le hn)]
  exact pages_hpePuts _ hp ho

/-- A string that the end of the buffer does not cut is copied as it is. -/
theorem buffered_hpeBcat (ho : hp.Open) {s : Octets}
    (hle : s.length ≤ hp.ctx.arg.bufLen - hp.ctx.cur.length) :
    ∃ hp', hpeBcat s hp = .ok () hp' ∧ Buffered hp s hp' := by
  have hroom := ho.room
  rw [hpeBcat]
  cases hs : s with
  | nil => exact ⟨hp, rfl, .refl ho⟩
  | cons b t =>
    rw [← hs]
    have hfit : hp.ctx.cur.length + s.length ≤ hp.ctx.arg.bufLen := by omega
    obtain ⟨hp', hrun, hput⟩ := buffered_hpeFlush ho hfit
    refine ⟨hp', ?_, hput⟩
    have hlen : s.length = t.length + 1 := by rw [hs, List.length_cons]
    have hmin : min (hp.ctx.arg.bufLen - hp.ctx.cur.length) (t.length + 1) = s.length := by omega
    rw [hlen]
    show (do
      let hp ← get
      assert (hp.ctx.cur.length < hp.ctx.arg.bufLen)
      let sz := min (hp.ctx.arg.bufLen - hp.ctx.cur.length) (t.length + 1)
      modify fun hp => { hp with ctx.cur := hp.ctx.cur ++ s.take sz }
      hpeFlush
      hpeBcatLoop s t.length (t.length + 1 - sz) : Cp Unit) hp = _
    rw [bind_apply, get_apply, Out.bind_ok, assert_bind_pos hroom, hmin, List.take_length,
      ← hlen, Nat.sub_self, bind_apply, modify_apply, Out.bind_ok, bind_apply, hrun, Out.bind_ok]
    cases t.length <;> rfl

end Cashpack
