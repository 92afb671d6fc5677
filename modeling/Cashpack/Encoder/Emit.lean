import Cashpack.Encoder.Runs

/-!
# The octets an encoder sends

What an encoder sends is the octets of its DATA events, followed by those that wait in the working
buffer.  `Emits x bs` says that `x` appends `bs` to what is sent, wherever the buffer is flushed.

## Main results

* `emits_hpePuts`, `emits_hpiEncode` : the functions that put octets one by one.
* `sends_hpeBcat` : `HPE_bcat` sends as many octets as it is given.
-/

namespace Cashpack

open Prog

variable {hp hp' hp'' : Hpack} {bs cs : Octets} {x y : Cp Unit}

/-- The octets of a DATA event. -/
def Event.sent : Event → Octets
  | .data s => s
  | _ => []

/-- The octets sent so far. -/
def Hpack.sent (hp : Hpack) : Octets := hp.ctx.log.flatMap Event.sent ++ hp.ctx.cur

/-- The buffer has room, and events are notified. -/
structure Hpack.Open (hp : Hpack) : Prop where
  room : hp.ctx.cur.length < hp.ctx.arg.bufLen
  fits : hp.ctx.tooBig = false

/-- These octets were sent from `hp` to `hp'`. -/
structure Sends (hp : Hpack) (bs : Octets) (hp' : Hpack) : Prop where
  sent : hp'.sent = hp.sent ++ bs
  magic : hp'.magic = hp.magic
  arg : hp'.ctx.arg = hp.ctx.arg
  tooBig : hp'.ctx.tooBig = hp.ctx.tooBig
  room : hp.ctx.cur.length < hp.ctx.arg.bufLen → hp'.ctx.cur.length < hp'.ctx.arg.bufLen

theorem Sends.keeps_open (h : Sends hp bs hp') (ho : hp.Open) : hp'.Open :=
  ⟨h.room ho.room, h.tooBig.trans ho.fits⟩

theorem Sends.refl (hp : Hpack) : Sends hp [] hp where
  sent := (List.append_nil _).symm
  magic := rfl
  arg := rfl
  tooBig := rfl
  room h := h

theorem Sends.trans (h : Sends hp bs hp') (h' : Sends hp' cs hp'') : Sends hp (bs ++ cs) hp'' where
  sent := by rw [h'.sent, h.sent, List.append_assoc]
  magic := h'.magic.trans h.magic
  arg := h'.arg.trans h.arg
  tooBig := h'.tooBig.trans h.tooBig
  room hr := h'.room (h.room hr)

/-- On an encoder, `x` sends these octets; it returns when the buffer is open. -/
def Emits (x : Cp Unit) (bs : Octets) : Prop :=
  ∀ hp, hp.magic = .encoder →
    (x hp).Holds (fun _ hp' => Sends hp bs hp') (fun _ => False) fun _ => ¬ hp.Open

theorem Emits.nil : Emits (pure ()) [] := fun hp _ => Sends.refl hp

theorem Emits.bind (hx : Emits x bs) (hy : Emits y cs) : Emits (do x; y) (bs ++ cs) := by
  intro hp hm
  rw [bind_apply]
  refine (hx hp hm).bind fun _ hp' h => ?_
  exact (hy hp' (h.magic.trans hm)).mono (fun _ _ h' => h.trans h') (fun _ h' => h')
    fun _ h' ho => h' (h.keeps_open ho)

/-- With an open buffer, the octets are sent. -/
theorem Emits.run (hx : Emits x bs) (hm : hp.magic = .encoder) (ho : hp.Open) :
    ∃ hp', x hp = .ok () hp' ∧ Sends hp bs hp' := by
  have h := hx hp hm
  cases hr : x hp with
  | ok _ hp' =>
    rw [hr] at h
    exact ⟨hp', rfl, h⟩
  | err _ =>
    rw [hr] at h
    exact h.elim
  | stop _ =>
    rw [hr] at h
    exact absurd ho h

/-! ### The working buffer -/

/-- The buffer is flushed when it is full, after octets were put in it. -/
theorem hpeFlush_holds (hm : hp.magic = .encoder) {bs : Octets} (hbs : bs ≠ [])
    (hle : hp.ctx.cur.length + bs.length ≤ hp.ctx.arg.bufLen) :
    (hpeFlush { hp with ctx.cur := hp.ctx.cur ++ bs }).Holds
      (fun _ hp' => Sends hp bs hp' ∧ hp'.ctx.arg.bufLen - hp'.ctx.cur.length
        = if hp.ctx.cur.length + bs.length = hp.ctx.arg.bufLen then hp.ctx.arg.bufLen
          else hp.ctx.arg.bufLen - (hp.ctx.cur.length + bs.length))
      (fun _ => False) fun _ => ¬ hp.Open := by
  have hpos : 0 < bs.length := List.length_pos_of_ne_nil hbs
  rw [hpeFlush, bind_apply, get_apply, Out.bind_ok, when_apply]
  by_cases hfull : hp.ctx.cur.length + bs.length = hp.ctx.arg.bufLen
  · have hlen : (hp.ctx.cur ++ bs).length = hp.ctx.arg.bufLen := by simpa using hfull
    have hne : hp.ctx.cur ++ bs ≠ [] := by simp [hbs]
    rw [if_pos hlen, if_pos hfull, hpeSend, bind_apply, get_apply, Out.bind_ok, when_apply,
      if_pos hne, bind_apply, hpcNotify]
    split
    · rename_i hbig
      split
      · rename_i hdec
        exact absurd (hm.symm.trans hdec) (by decide)
      · exact fun ho => Bool.false_ne_true (ho.fits.symm.trans hbig)
    · refine ⟨⟨?_, rfl, rfl, rfl, fun _ => ?_⟩, rfl⟩
      · simp [Hpack.sent, Event.sent]
      · show 0 < hp.ctx.arg.bufLen
        omega
  · have hlen : (hp.ctx.cur ++ bs).length ≠ hp.ctx.arg.bufLen := by simpa using hfull
    rw [if_neg hlen, if_neg hfull]
    refine ⟨⟨?_, rfl, rfl, rfl, fun _ => ?_⟩, ?_⟩
    · simp [Hpack.sent]
    · rw [List.length_append]
      show _ < hp.ctx.arg.bufLen
      omega
    · rw [List.length_append]

theorem emits_hpePutb (b : UInt8) : Emits (hpePutb b) [b] := by
  intro hp hm
  rw [hpePutb, bind_apply, get_apply, Out.bind_ok]
  by_cases hroom : hp.ctx.cur.length < hp.ctx.arg.bufLen
  · rw [assert_bind_pos hroom, bind_apply, modify_apply, Out.bind_ok]
    exact (hpeFlush_holds hm (List.cons_ne_nil b []) hroom).mono (fun _ _ h => h.1)
      (fun _ h => h) fun _ h => h
  · rw [assert_bind_neg hroom]
    exact fun ho => hroom ho.room

theorem emits_hpePuts (bs : Octets) : Emits (hpePuts bs) bs := by
  induction bs with
  | nil => exact .nil
  | cons b bs ih => exact (emits_hpePutb b).bind ih

theorem emits_hpiEncode (p : Hpp) (val : ℕ) : Emits (hpiEncode p val) (hpiOctets p (val % 65536)) := by
  intro hp hm
  rw [hpiEncode, bind_apply, get_apply, Out.bind_ok]
  by_cases hroom : hp.ctx.cur.length < hp.ctx.arg.bufLen
  · rw [assert_bind_pos hroom]
    exact emits_hpePuts _ hp hm
  · rw [assert_bind_neg hroom]
    exact fun ho => hroom ho.room

/-- The octets that the loop of `HPE_bcat` sends when the buffer has room for `room` octets: every
`memcpy` is from the start of the string. -/
def bcatOctets (buf : Octets) (bufLen : ℕ) : ℕ → ℕ → ℕ → Octets
  | 0, _, _ => []
  | fuel + 1, room, len =>
    if len = 0 then []
    else
      let sz := min room len
      buf.take sz ++ bcatOctets buf bufLen fuel (if sz = room then bufLen else room - sz) (len - sz)

theorem length_bcatOctets {buf : Octets} {bufLen fuel room len : ℕ} (hfuel : len ≤ fuel)
    (hbuf : len ≤ buf.length) (hroom : 0 < room) (hlen : 0 < bufLen) :
    (bcatOctets buf bufLen fuel room len).length = len := by
  induction fuel generalizing room len with
  | zero => exact (Nat.le_zero.1 hfuel).symm
  | succ fuel ih =>
    rw [bcatOctets]
    split
    · rename_i h0
      exact h0.symm
    · have hnext : 0 < if min room len = room then bufLen else room - min room len := by
        split
        · exact hlen
        · omega
      rw [List.length_append, List.length_take, ih (by omega) (by omega) hnext]
      omega

/-- `HPE_bcat` sends these octets. -/
theorem sends_hpeBcatLoop {buf : Octets} {fuel len : ℕ} (hfuel : len ≤ fuel)
    (hbuf : len ≤ buf.length) (hm : hp.magic = .encoder) :
    (hpeBcatLoop buf fuel len hp).Holds
      (fun _ hp' => Sends hp (bcatOctets buf hp.ctx.arg.bufLen fuel
        (hp.ctx.arg.bufLen - hp.ctx.cur.length) len) hp')
      (fun _ => False) fun _ => ¬ hp.Open := by
  induction fuel generalizing hp len with
  | zero =>
    obtain rfl := Nat.le_zero.1 hfuel
    exact Sends.refl hp
  | succ fuel ih =>
    rw [bcatOctets]
    by_cases h0 : len = 0
    · subst h0
      exact Sends.refl hp
    rw [if_neg h0, hpeBcatLoop]
    · rw [bind_apply, get_apply, Out.bind_ok]
      by_cases hroom : hp.ctx.cur.length < hp.ctx.arg.bufLen
      swap
      · rw [assert_bind_neg hroom]
        exact fun ho => hroom ho.room
      rw [assert_bind_pos hroom]
      dsimp only
      rw [bind_apply, modify_apply, Out.bind_ok, bind_apply]
      generalize hsz : min (hp.ctx.arg.bufLen - hp.ctx.cur.length) len = sz
      have htake : (buf.take sz).length = sz := by
        rw [List.length_take]
        omega
      have hne : buf.take sz ≠ [] := List.ne_nil_of_length_pos (by omega)
      refine (hpeFlush_holds hm hne (by omega)).bind fun _ hp' h => ?_
      obtain ⟨hsends, hleft⟩ := h
      refine (ih (by omega) (by omega) (hsends.magic.trans hm)).mono (fun _ hp'' h' => ?_)
        (fun _ h' => h') fun _ h' ho => h' (hsends.keeps_open ho)
      have hroom' : hp'.ctx.arg.bufLen - hp'.ctx.cur.length
          = if sz = hp.ctx.arg.bufLen - hp.ctx.cur.length then hp.ctx.arg.bufLen
            else hp.ctx.arg.bufLen - hp.ctx.cur.length - sz := by
        rw [hleft, htake]
        split_ifs <;> omega
      rw [hroom', hsends.arg] at h'
      exact hsends.trans h'
    · exact h0

theorem sends_hpeBcat (buf : Octets) (hm : hp.magic = .encoder) :
    (hpeBcat buf hp).Holds
      (fun _ hp' => Sends hp (bcatOctets buf hp.ctx.arg.bufLen buf.length
        (hp.ctx.arg.bufLen - hp.ctx.cur.length) buf.length) hp')
      (fun _ => False) fun _ => ¬ hp.Open :=
  sends_hpeBcatLoop (le_refl _) (le_refl _) hm

end Cashpack
