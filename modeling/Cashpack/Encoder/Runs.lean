import Cashpack.Codec.Frame

/-!
# Runs of an encoder

The calls an application can make on an encoder, and the state `hpack_encoder` returns it in.
-/

namespace Cashpack

open Prog

/-- A call on an encoder, with what `realloc` hands back where it is used. -/
inductive EncOp
  | limit (len : ℕ) (re : Option Block)
  | resize (len : ℕ) (re : Option Block)
  | trim (re : Option Block)
  | encode (enc : Encoding)
  | foreach (static dynamic : Bool)

/-- Make a call. -/
def EncOp.exec : EncOp → Cp Res
  | .limit len re => hpackLimit len re
  | .resize len re => hpackResize len re
  | .trim re => hpackTrim re
  | .encode enc => do
    let r ← hpackEncode enc
    pure r.1
  | .foreach static dynamic => hpackForeach static dynamic

/-- A codec that `hpack_encoder` just returned for a maximum and a limit. -/
def NewEncoder (max : ℕ) (lim : ℤ) (hp : Hpack) : Prop :=
  ∃ ha : Alloc, hpackEncoder max lim ha () = .ok (some hp) ()

/-- A new encoder is an initialised block of memory, with the limit left to apply. -/
theorem NewEncoder.init {max : ℕ} {lim : ℤ} {hp : Hpack} (h : NewEncoder max lim hp) :
    ∃ (realloc : Bool) (blk : Block), max ≤ uint16Max ∧ lim ≤ uint16Max ∧
      hp = { Hpack.init .encoder (if 0 ≤ lim then lim.toNat else max) max realloc blk with
        sz := ⟨if 0 ≤ lim then lim.toNat else max, max, -1, if 0 ≤ lim then lim else -1, 0, -1,
          -1⟩ } := by
  obtain ⟨ha, h⟩ := h
  rw [hpackEncoder, bind_apply] at h
  generalize hmem : (if 0 ≤ lim then lim.toNat else max) = mem at h
  cases hnew : hpackNew .encoder mem max ha () with
  | err _ => rw [hnew] at h; cases h
  | stop w => rw [hnew] at h; cases h
  | ok hp? _ =>
    rw [hnew, Out.bind_ok] at h
    cases hp? with
    | none => cases h
    | some hp₀ =>
      obtain ⟨hmax, hle, -, blk, rfl⟩ := hpackNew_some hnew
      dsimp only at h
      by_cases hlim : 0 ≤ lim
      · rw [if_pos hlim] at hmem h
        subst hmem
        -- the limit is recorded, with no need for more memory
        have hno : ¬ (max ≤ lim.toNat ∧ lim.toNat < max) := by omega
        have hrun : hpackLimit lim.toNat none
            (Hpack.init .encoder lim.toNat max ha.realloc blk)
            = .ok .ok { Hpack.init .encoder lim.toNat max ha.realloc blk with
                sz := ⟨lim.toNat, max, -1, lim.toNat, 0, -1, -1⟩ } := by
          simp [hpackLimit, hpackRealloc, Hpack.init, Ctx.zero, Nat.not_lt.2 hle, hno, Res.val]
        rw [hrun] at h
        dsimp only at h
        rw [assert_bind_pos rfl, assert_bind_pos rfl,
          assert_bind_pos (Int.toNat_of_nonneg hlim).symm] at h
        simp only [pure_apply, Out.ok.injEq, Option.some.injEq, and_true] at h
        refine ⟨ha.realloc, blk, hmax, by omega, ?_⟩
        rw [if_pos hlim, ← h]
        simp [Int.toNat_of_nonneg hlim]
      · rw [if_neg hlim] at hmem h
        subst hmem
        cases h
        refine ⟨ha.realloc, blk, hmax, by omega, ?_⟩
        rw [if_neg hlim]
        rfl

end Cashpack
