import Cashpack.Encoder.Clean
import Cashpack.Wire.Encode

/-!
# Signalling sizes

The size updates an encoder sends at the start of a block.  They come from six fields that
`hpack_resize`, `hpack_limit` and `hpack_encode` change at different times; `Size.Sound` is what
these fields must satisfy for the updates to be ones the encoder abides by, and its peer accepts.

## Main results

* `hpackEncodeUpdate_first`, `hpackEncodeUpdate_last`, `hpackEncodeUpdate_limit` : the three kinds
  of updates.
* `hpackEncodeResize_wire`, `hpackEncodeLimit_wire` : the octets at the start of a block, and the
  tables after them.
-/

namespace Cashpack

open Prog Fifo

variable {hp hp' : Hpack} {p p' : Peer} {n : ℕ} {os : Octets} {enc : Encoding}

/-! ### Sizes -/

/-- The resize that the encoder has to signal. -/
def Size.Pends (sz : Size) : Option (ℕ × ℕ) → Prop
  | none => sz.min = -1 ∧ sz.nxt = -1
  | some (smallest, last) => sz.min = smallest ∧ sz.nxt = last ∧ smallest ≤ last

/-- The limit of the table once the updates at the start of a block are sent. -/
def Size.target (sz : Size) : ℕ :=
  if 0 ≤ sz.min then (if 0 ≤ sz.cap ∧ sz.cap ≤ sz.nxt then sz.cap.toNat else sz.nxt.toNat)
  else if 0 ≤ sz.cap ∧ sz.cap.toNat < sz.max then sz.cap.toNat else sz.limit

/-- The sizes that are signalled at the start of a block. -/
def Size.updates (sz : Size) : List ℕ :=
  if 0 ≤ sz.min then (if sz.min < sz.nxt then [sz.min.toNat, sz.target] else [sz.target])
  else if 0 ≤ sz.cap ∧ sz.cap.toNat < sz.max then [sz.target] else []

/-- The octets of these updates. -/
def updateOctets (ns : List ℕ) : Octets := ns.flatMap (hpiOctets .upd)

/-- The updates can be abided by: there is memory for the limit, and when there are two updates,
no older limit stands in the way of the first one, nor does the maximum. -/
structure Size.Sound (sz : Size) (mem : ℕ) : Prop where
  target_le : sz.target ≤ mem
  twice : sz.min < sz.nxt → sz.lim < 0 ∧ sz.min ≤ sz.max

instance (sz : Size) (mem : ℕ) : Decidable (sz.Sound mem) :=
  decidable_of_iff (sz.target ≤ mem ∧ (sz.min < sz.nxt → sz.lim < 0 ∧ sz.min ≤ sz.max))
    ⟨fun h => ⟨h.1, h.2⟩, fun h => ⟨h.1, h.2⟩⟩

/-- An encoder between two blocks, and the peer that reads what it sends. -/
structure Hpack.Speaks (hp : Hpack) (p : Peer) : Prop extends hp.Drives p where
  fits : hp.ctx.tooBig = false
  mem : hp.sz.mem = hp.tbl.length
  max_le : hp.sz.max ≤ uint16Max
  max : hp.sz.max = p.max
  resize : hp.sz.Pends p.resize
  capped : 0 ≤ hp.sz.min → hp.sz.lim < 0 ∨ 0 ≤ hp.sz.cap

/-- Only the tables and the sizes matter to the peer. -/
theorem Hpack.Speaks.congr (hs : hp.Speaks p) (ht : hp'.toTable = hp.toTable)
    (hown : hp'.ctx.hp = hp'.addr) (hm : hp'.magic = .encoder) (hplain : hp'.mon = false)
    (hb : hp'.ctx.tooBig = false) : hp'.Speaks p where
  toMirrors := hs.toMirrors.congr ht hown
  encoder := hm
  plain := hplain
  small := ht ▸ hs.small
  fits := hb
  mem := ht ▸ hs.mem
  max_le := ht ▸ hs.max_le
  max := ht ▸ hs.max
  resize := ht ▸ hs.resize
  capped := ht ▸ hs.capped

/-! ### Updates -/

/-- What an update does once its size is settled. -/
def hpackSignal (n : ℕ) : Cp Unit := do
  let hp ← get
  hpackAdjust hp.sz.len
  hpiEncode .upd n
  hpcNotify (.table n)

/-- An update in its parts. -/
theorem hpackEncodeUpdate_ok {lim : ℤ} (h : hpackEncodeUpdate lim hp = .ok () hp') :
    hp.ctx.canUpd = true ∧ 0 ≤ lim ∧ lim ≤ uint16Max ∧
      ∃ lim' hp₁ hp₂, hpackEncodeSettle lim hp = .ok lim' hp₁ ∧ 0 ≤ lim' ∧
        hpackSignal lim'.toNat hp₁ = .ok () hp₂ ∧ hpackEncodeUpdated hp₂ = .ok () hp' ∧
        lim'.toNat ≤ hp'.sz.max := by
  rw [hpackEncodeUpdate, bind_apply, get_apply, Out.bind_ok] at h
  obtain ⟨hupd, h⟩ := assert_bind_eq_ok h
  obtain ⟨hpos, h⟩ := assert_bind_eq_ok h
  obtain ⟨hle, h⟩ := assert_bind_eq_ok h
  obtain ⟨lim', hp₁, hsettle, h⟩ := bind_eq_ok h
  obtain ⟨hpos', h⟩ := assert_bind_eq_ok h
  rw [bind_apply, get_apply, Out.bind_ok] at h
  obtain ⟨_, hp₂, hadj, h⟩ := bind_eq_ok h
  obtain ⟨_, hp₃, hint, h⟩ := bind_eq_ok h
  obtain ⟨_, hp₄, hnot, h⟩ := bind_eq_ok h
  obtain ⟨_, hp₅, hupdated, h⟩ := bind_eq_ok h
  obtain ⟨hmax, hend⟩ :=
    assert_eq_ok (show assert (lim'.toNat ≤ hp₅.sz.max) hp₅ = .ok () hp' from h)
  refine ⟨hupd, hpos, hle, lim', hp₁, hp₄, hsettle, hpos', ?_, ?_, ?_⟩
  · rw [hpackSignal, bind_apply, get_apply, Out.bind_ok, bind_apply, hadj, Out.bind_ok, bind_apply,
      hint, Out.bind_ok, hnot]
  · rw [hupdated, hend]
  · rw [hend]
    exact hmax

theorem quiet_evictEvents (n : ℕ) : Quiet (evictEvents n) := by
  intro evt hevt
  unfold evictEvents at hevt
  split at hevt
  · rw [List.mem_singleton.1 hevt]
    rfl
  · exact absurd hevt List.not_mem_nil

/-- The encoder with other sizes. -/
def Hpack.sized (hp : Hpack) (max : ℕ) (lim : ℤ) : Hpack :=
  { hp with sz.max := max, sz.lim := lim }

/-- The table is evicted to the size that is signalled, when it is the one the encoder will
abide by. -/
theorem hpackSignal_wire (hd : hp.Drives p) (ho : hp.Open) {max : ℕ} {lim : ℤ}
    (hlimit : (hp.sized max lim).sz.limit = n) (hlim : lim ≤ max) (hn : n ≤ uint16Max) :
    ∃ hp', hpackSignal n (hp.sized max lim) = .ok () hp' ∧
      hp.Emitted (hpiOctets .upd n) hp' ∧ (hp.sized max lim).SameSizes hp' ∧
      hp'.Drives (p.limitTo n) := by
  have ho₁ : (hp.sized max lim).Open := ⟨ho.room, ho.fits⟩
  have hrep : (hp.sized max lim).toTable.Rep p.entries := ⟨hd.rep.cnt, hd.rep.len, hd.rep.mem⟩
  have hadj := hpackAdjust_eq hrep (Or.inl ho.fits) (Or.inl hlim)
  rw [hlimit] at hadj
  generalize hhp₂ : ((hp.sized max lim).withTable ((hp.sized max lim).toTable.keep
    (fit Entry.size n p.entries))) = hp₂ at hadj
  have ho₂ : hp₂.Open := hhp₂ ▸ ⟨ho.room, ho.fits⟩
  have hput₂ := Buffered.notify ho₂ _
    (quiet_evictEvents (p.entries.length - (fit Entry.size n p.entries).length))
  obtain ⟨hp₃, hrun₃, hput₃⟩ := pages_hpiEncode .upd hn _ (hput₂.keeps_open ho₂)
  have ho₃ := (hput₂.trans hput₃).keeps_open ho₂
  have hput₄ := Buffered.notify ho₃ [.table n] fun e he => List.mem_singleton.1 he ▸ rfl
  have hput := (hput₂.trans hput₃).trans hput₄
  rw [List.append_nil, List.nil_append] at hput
  refine ⟨hp₃.notify [.table n], ?_, ⟨?_, ?_, ?_⟩, ⟨?_, ?_, ?_⟩, ?_⟩
  · rw [hpackSignal, bind_apply, get_apply, Out.bind_ok, bind_apply, hadj, Out.bind_ok, bind_apply,
      hrun₃, Out.bind_ok, hpcNotify_eq (Or.inl ho₃.fits)]
  · rw [hput.frame, ← hhp₂]
    rfl
  · rw [hput.sent, ← hhp₂]
    rfl
  · rw [hput.page, ← hhp₂]
    rfl
  · rw [hput.table, ← hhp₂]
    rfl
  · rw [hput.table, ← hhp₂]
    rfl
  · rw [hput.frame, ← hhp₂]
    rfl
  · have hd₂ : hp₂.Drives (p.limitTo n) := by
      rw [← hhp₂]
      exact ⟨⟨hrep.keep (fit_isPrefix _ _), fun e he => hd.valid e ((fit_isPrefix _ _).subset he),
        hd.own, hlimit, hlim⟩, hd.encoder, hd.plain, hd.small⟩
    exact hd₂.puts hput

/-- The encoder with other sizes for its updates. -/
def Hpack.recorded (hp : Hpack) (min nxt cap : ℤ) (u : Bool) : Hpack :=
  { hp with sz.min := min, sz.nxt := nxt, sz.cap := cap, ctx.canUpd := u }

variable {min nxt cap : ℤ} {u : Bool}

theorem Hpack.Emitted.recorded (h : hp.Emitted os hp') :
    hp.Emitted os (hp'.recorded min nxt cap u) where
  frame := by
    rw [h.frame]
    rfl
  sent := h.sent
  page := h.page

theorem Hpack.Drives.recorded (hd : hp.Drives p) : (hp.recorded min nxt cap u).Drives p :=
  ⟨⟨⟨hd.rep.cnt, hd.rep.len, hd.rep.mem⟩, hd.valid, hd.own, hd.limit, hd.lim_le⟩,
    hd.encoder, hd.plain, hd.small⟩

/-- The limit that `hpack_cap` chooses. -/
theorem hpackCap_eq {lim : ℤ} (max : ℤ) (h0 : 0 ≤ lim) :
    hpackCap lim max hp = .ok (if 0 ≤ hp.sz.cap ∧ hp.sz.cap ≤ max then hp.sz.cap else lim)
      { hp with sz.lim :=
          if hp.sz.cap < 0 then hp.sz.lim else if max < hp.sz.cap then -1 else hp.sz.cap } := by
  rw [hpackCap, assert_bind_pos h0, bind_apply, get_apply, Out.bind_ok, ite_run]
  by_cases hneg : hp.sz.cap < 0
  · rw [if_pos hneg, if_pos hneg, if_neg (by omega)]
    rfl
  rw [if_neg hneg, if_neg hneg, ite_run]
  by_cases hbig : max < hp.sz.cap
  · rw [if_pos hbig, if_pos hbig, if_neg (by omega)]
    rfl
  · rw [if_neg hbig, if_neg hbig, if_pos (by omega)]
    rfl

/-- The first of two updates signals the smallest size. -/
theorem hpackEncodeUpdate_first {m : ℕ} (hd : hp.Drives p) (ho : hp.Open) (hmin : hp.sz.min = m)
    (hnxt : hp.sz.nxt = n) (hlt : m < n) (hlim : hp.sz.lim < 0)
    (h : hpackEncodeUpdate hp.sz.min hp = .ok () hp') :
    hp.Emitted (hpiOctets .upd m) hp' ∧ hp'.Drives (p.limitTo m) ∧
      hp'.sz = { hp.sz with max := m, min := n, len := hp'.sz.len } ∧
      hp'.tbl.length = hp.tbl.length ∧ hp'.ctx.canUpd = true := by
  obtain ⟨hupd, hpos, hle, lim', hp₁, hp₂, hsettle, -, hsignal, hupdated, -⟩ :=
    hpackEncodeUpdate_ok h
  have hm : hp.sz.min.toNat = m := by omega
  have hlt' : hp.sz.min < hp.sz.nxt := by omega
  rw [hpackEncodeSettle, bind_apply, get_apply, Out.bind_ok, ite_run, if_pos hpos,
    assert_bind_pos hlt'.le, bind_apply, modify_apply, Out.bind_ok, ite_run, if_pos hlt',
    assert_bind_pos rfl] at hsettle
  cases hsettle
  have hlimit : (hp.sized m hp.sz.lim).sz.limit = m := if_neg (by show ¬ 0 ≤ hp.sz.lim; omega)
  obtain ⟨hp₃, hrun, hem, hsz, hd'⟩ :=
    hpackSignal_wire hd ho hlimit (by omega) (by omega)
  have hsignal' : hpackSignal m (hp.sized m hp.sz.lim) = .ok () hp₂ := by
    rw [hm] at hsignal
    exact hsignal
  rw [hrun] at hsignal'
  cases hsignal'
  have hsz' : hp₂.sz = { hp.sz with max := m, len := hp₂.sz.len } := hsz.sz
  rw [hpackEncodeUpdated, bind_apply, get_apply, Out.bind_ok, ite_run,
    if_pos (by rw [hsz']; exact hlt'), assert_bind_pos (by rw [hsz']; exact hpos)] at hupdated
  cases hupdated
  refine ⟨hem.recorded, hd'.recorded, ?_, hsz.mem, hsz.canUpd.trans hupd⟩
  show ({ hp₂.sz with min := hp₂.sz.nxt } : Size) = _
  rw [hsz', hnxt]

/-- The last update of a resize signals the limit if there is one, or the size. -/
theorem hpackEncodeUpdate_last (hd : hp.Drives p) (ho : hp.Open)
    (hmem : hp.sz.mem = hp.tbl.length) (hmin : hp.sz.min = n)
    (hnxt : hp.sz.nxt = n) (hcap : hp.sz.lim < 0 ∨ 0 ≤ hp.sz.cap)
    (h : hpackEncodeUpdate hp.sz.nxt hp = .ok () hp') :
    hp.sz.target ≤ n ∧ hp.Emitted (hpiOctets .upd hp.sz.target) hp' ∧
      hp'.Speaks { (p.limitTo hp.sz.target).started with max := n, resize := none } ∧
      hp'.sz.limit = hp.sz.target ∧ hp'.tbl.length = hp.tbl.length := by
  obtain ⟨hupd, hpos, hle, lim', hp₁, hp₂, hsettle, -, hsignal, hupdated, -⟩ :=
    hpackEncodeUpdate_ok h
  have hn : hp.sz.nxt.toNat = n := by omega
  rw [hpackEncodeSettle, bind_apply, get_apply, Out.bind_ok, ite_run, if_pos (by omega),
    assert_bind_pos (by omega), bind_apply, modify_apply, Out.bind_ok, ite_run,
    if_neg (by omega), hpackCap_eq _ hpos] at hsettle
  cases hsettle
  -- the limit that was chosen is the one the table is evicted to
  generalize hlm : (if hp.sz.cap < 0 then hp.sz.lim else
    if hp.sz.nxt < hp.sz.cap then -1 else hp.sz.cap) = lm at hsignal
  generalize hk : hp.sz.target = k
  have htarget : (if 0 ≤ hp.sz.cap ∧ hp.sz.cap ≤ hp.sz.nxt then hp.sz.cap else hp.sz.nxt).toNat
      = k := by
    have hpend : 0 ≤ hp.sz.min := by omega
    rw [← hk, Size.target, if_pos hpend]
    exact apply_ite Int.toNat _ _ _
  have hlimit : (hp.sized n lm).sz.limit = k := by
    show (if 0 ≤ lm then lm.toNat else n) = k
    rw [← htarget, ← hlm]
    split_ifs <;> omega
  have hlim : lm ≤ n := by
    rw [← hlm]
    split_ifs <;> omega
  have hkn : k ≤ n := by
    rw [← htarget]
    split_ifs <;> omega
  obtain ⟨hp₃, hrun, hem, hsz, hd'⟩ := hpackSignal_wire hd ho hlimit hlim (by omega)
  have hsignal' : hpackSignal k (hp.sized n lm) = .ok () hp₂ := by
    rw [← htarget, ← hn]
    exact hsignal
  rw [hrun] at hsignal'
  cases hsignal'
  have hsz' : hp₂.sz = { hp.sz with max := n, lim := lm, len := hp₂.sz.len } := hsz.sz
  have hmin₂ : hp₂.sz.min = n := by rw [hsz']; exact hmin
  have hnxt₂ : hp₂.sz.nxt = n := by rw [hsz']; exact hnxt
  rw [hpackEncodeUpdated, bind_apply, get_apply, Out.bind_ok, ite_run,
    if_neg (by omega), when_apply, if_pos (by omega), assert_bind_pos (by omega)] at hupdated
  cases hupdated
  have hd₂ : (hp₂.recorded (-1) (-1) hp₂.sz.cap false).Drives (p.limitTo k) := hd'.recorded
  refine ⟨hkn, hem.recorded, ⟨hd₂.peer rfl rfl, ?_, ?_, ?_, ?_, ⟨rfl, rfl⟩,
    fun hc => absurd (show (0 : ℤ) ≤ -1 from hc) (by decide)⟩, hd₂.limit, hsz.mem⟩
  · show hp₂.ctx.tooBig = false
    exact (hem.keeps_open ho).fits
  · show hp₂.sz.mem = hp₂.tbl.length
    rw [hsz', show hp₂.tbl.length = hp.tbl.length from hsz.mem]
    exact hmem
  · show hp₂.sz.max ≤ uint16Max
    rw [hsz']
    show n ≤ uint16Max
    omega
  · show hp₂.sz.max = n
    rw [hsz']

/-- Without a resize, an update signals a limit below the maximum. -/
theorem hpackEncodeUpdate_limit (hd : hp.Drives p) (ho : hp.Open)
    (hmem : hp.sz.mem = hp.tbl.length) (hmax_le : hp.sz.max ≤ uint16Max) (hmax : hp.sz.max = p.max)
    (hset : p.resize = none) (hmin : hp.sz.min = -1) (hnxt : hp.sz.nxt = -1)
    (hcap : 0 ≤ hp.sz.cap) (hlt : hp.sz.cap.toNat < hp.sz.max)
    (h : hpackEncodeUpdate hp.sz.cap hp = .ok () hp') :
    hp.Emitted (hpiOctets .upd hp.sz.cap.toNat) hp' ∧
      (hp'.recorded hp'.sz.min hp'.sz.nxt (-1) hp'.ctx.canUpd).Speaks
        (p.limitTo hp.sz.cap.toNat).started ∧ hp'.sz.limit = hp.sz.cap.toNat ∧
      hp'.tbl.length = hp.tbl.length := by
  obtain ⟨hupd, hpos, hle, lim', hp₁, hp₂, hsettle, -, hsignal, hupdated, -⟩ :=
    hpackEncodeUpdate_ok h
  rw [hpackEncodeSettle, bind_apply, get_apply, Out.bind_ok, ite_run, if_neg (by omega),
    bind_apply, hpackCap_eq _ hpos, Out.bind_ok, bind_apply, get_apply, Out.bind_ok,
    if_pos (by omega), if_neg (by omega), if_neg (by omega)] at hsettle
  obtain ⟨-, hsettle⟩ := assert_bind_eq_ok hsettle
  cases hsettle
  have hlimit : (hp.sized hp.sz.max hp.sz.cap).sz.limit = hp.sz.cap.toNat := if_pos hcap
  obtain ⟨hp₃, hrun, hem, hsz, hd'⟩ :=
    hpackSignal_wire hd ho hlimit (by omega) (by omega)
  rw [show hpackSignal hp.sz.cap.toNat (hp.sized hp.sz.max hp.sz.cap) = .ok () hp₂ from hsignal]
    at hrun
  cases hrun
  have hsz' : hp₂.sz = { hp.sz with lim := hp.sz.cap, len := hp₂.sz.len } := hsz.sz
  have hmin₂ : hp₂.sz.min = -1 := by rw [hsz']; exact hmin
  have hnxt₂ : hp₂.sz.nxt = -1 := by rw [hsz']; exact hnxt
  rw [hpackEncodeUpdated, bind_apply, get_apply, Out.bind_ok, ite_run, if_neg (by omega),
    when_apply, if_neg (by omega)] at hupdated
  cases hupdated
  refine ⟨hem, ⟨(hd'.recorded).started, ?_, ?_, ?_, ?_, ?_, ?_⟩, hd'.limit, hsz.mem⟩
  · exact (hem.keeps_open ho).fits
  · show hp'.sz.mem = hp'.tbl.length
    rw [hsz', show hp'.tbl.length = hp.tbl.length from hsz.mem]
    exact hmem
  · show hp'.sz.max ≤ uint16Max
    rw [hsz']
    exact hmax_le
  · show hp'.sz.max = p.max
    rw [hsz']
    exact hmax
  · show (hp'.recorded _ _ _ _).sz.Pends p.resize
    rw [hset]
    exact ⟨hmin₂, hnxt₂⟩
  · intro hc
    have hc' : 0 ≤ hp'.sz.min := hc
    omega

/-! ### The start of a block -/

/-- What an encoder sent at the start of a block, for its peer. -/
structure Hpack.Signalled (hp : Hpack) (p : Peer) (hp' : Hpack) : Prop where
  emitted : hp.Emitted (updateOctets hp.sz.updates) hp'
  limit : hp'.sz.limit = hp.sz.target
  mem : hp'.tbl.length = hp.tbl.length
  means : ∃ p', hp'.Speaks p' ∧ p'.resize = none ∧ ∀ off, ∃ evts,
    p.Encodes off [] (updateOctets hp.sz.updates) evts [] p'

/-- An update is a representation. -/
theorem Peer.Encodes.size (off : ℕ) (hn : n ≤ uint16Max) (hcan : p.canUpd = true)
    (h : p.Update n p') : ∃ evts, p.Encodes off [] (hpiOctets .upd n) evts [] p' := by
  have henc : p.Encodes off [] _ _ _ _ :=
    .update (.update (intWire_hpiOctets .upd hn)) (.update hcan h) (.nil _ p')
  rw [List.append_nil] at henc
  exact ⟨_, henc⟩

/-- Two updates signal a resize: the smallest size first, then the last one or a limit below it. -/
theorem hpackEncodeResize_twice {hp₁ : Hpack} {m : ℕ} (hs : hp.Speaks p) (ho : hp.Open)
    (hpeer : p.canUpd = true) (hres : p.resize = some (m, n)) (hlt : m < n) (hlim : hp.sz.lim < 0)
    (hmax : hp.sz.min ≤ hp.sz.max) (h₁ : hpackEncodeUpdate hp.sz.min hp = .ok () hp₁)
    (h₂ : Prog.when (0 ≤ hp₁.sz.nxt) (hpackEncodeUpdate hp₁.sz.nxt) hp₁ = .ok () hp') :
    hp.Signalled p hp' := by
  have hpends := hs.resize
  rw [hres] at hpends
  obtain ⟨hmin, hnxt, -⟩ := hpends
  obtain ⟨hem₁, hd₁, hsz₁, htbl₁, -⟩ :=
    hpackEncodeUpdate_first hs.toDrives ho hmin hnxt hlt hlim h₁
  have hpend : 0 ≤ hp.sz.min := by omega
  have hmin₁ : hp₁.sz.min = n := by rw [hsz₁]
  have hnxt₁ : hp₁.sz.nxt = n := by rw [hsz₁]; exact hnxt
  have hsame : hp₁.sz.target = hp.sz.target := by
    rw [hsz₁, Size.target, Size.target, if_pos hpend]
    exact if_pos (Int.natCast_nonneg n)
  rw [when_apply, if_pos (by omega)] at h₂
  have hd₁' : hp₁.Drives { p.limitTo m with resize := some (n, n) } := hd₁.peer rfl rfl
  have hmem₁ : hp₁.sz.mem = hp₁.tbl.length := by
    rw [hsz₁, htbl₁]
    exact hs.mem
  obtain ⟨hkn, hem₂, hs₂, hlimit₂, htbl₂⟩ := hpackEncodeUpdate_last hd₁' (hem₁.keeps_open ho)
    hmem₁ hmin₁ hnxt₁ (Or.inl (by rw [hsz₁]; exact hlim)) h₂
  have hn : n ≤ uint16Max := by
    have := (hpackEncodeUpdate_ok h₂).2.2.1
    omega
  have hoct : updateOctets hp.sz.updates = hpiOctets .upd m ++ hpiOctets .upd hp.sz.target := by
    rw [Size.updates, if_pos hpend, if_pos (by omega), hmin, Int.toNat_natCast]
    show hpiOctets .upd m ++ (hpiOctets .upd hp.sz.target ++ []) = _
    rw [List.append_nil]
  rw [hsame] at hem₂ hs₂ hlimit₂ hkn
  refine ⟨?_, hlimit₂, htbl₂.trans htbl₁, _, hs₂, rfl, fun off => ?_⟩
  · rw [hoct]
    exact hem₁.trans hem₂
  · obtain ⟨evts₁, hfirst⟩ := Peer.Encodes.size off (show m ≤ uint16Max by omega) hpeer
      (.smallest hres hlt (by rw [← hs.max]; omega))
    have hpeer₁ : ({ p.limitTo m with resize := some (n, n) } : Peer).canUpd = true := hpeer
    obtain ⟨evts₂, hlast⟩ := Peer.Encodes.size (off + (hpiOctets .upd m).length)
      (hkn.trans hn) hpeer₁ (.last rfl hkn)
    rw [hoct]
    exact ⟨_, hfirst.append hlast⟩

/-- One update signals a resize to a size that was not below another one. -/
theorem hpackEncodeResize_once {hp₁ : Hpack} (hs : hp.Speaks p) (ho : hp.Open)
    (hpeer : p.canUpd = true) (hres : p.resize = some (n, n))
    (h₁ : hpackEncodeUpdate hp.sz.min hp = .ok () hp₁)
    (h₂ : Prog.when (0 ≤ hp₁.sz.nxt) (hpackEncodeUpdate hp₁.sz.nxt) hp₁ = .ok () hp') :
    hp.Signalled p hp' := by
  have hpends := hs.resize
  rw [hres] at hpends
  obtain ⟨hmin, hnxt, -⟩ := hpends
  have hpend : 0 ≤ hp.sz.min := by omega
  rw [show hp.sz.min = hp.sz.nxt by omega] at h₁
  obtain ⟨hkn, hem, hs₁, hlimit, htbl⟩ :=
    hpackEncodeUpdate_last hs.toDrives ho hs.mem hmin hnxt (hs.capped hpend) h₁
  -- nothing is left to signal
  have hnxt₁ : hp₁.sz.nxt = -1 := hs₁.resize.2
  rw [when_apply, if_neg (by omega)] at h₂
  cases h₂
  have hn : n ≤ uint16Max := by
    have := (hpackEncodeUpdate_ok h₁).2.2.1
    omega
  have hoct : updateOctets hp.sz.updates = hpiOctets .upd hp.sz.target := by
    rw [Size.updates, if_pos hpend, if_neg (by omega)]
    exact List.append_nil _
  rw [← hoct] at hem
  refine ⟨hem, hlimit, htbl, _, hs₁, rfl, fun off => ?_⟩
  rw [hoct]
  exact Peer.Encodes.size off (hkn.trans hn) hpeer (.last hres hkn)

/-- The updates that signal a resize. -/
theorem hpackEncodeResize_wire (hs : hp.Speaks p) (ho : hp.Open) (hcan : hp.ctx.canUpd = true)
    (hpeer : p.canUpd = true)
    (htwice : hp.sz.min < hp.sz.nxt → hp.sz.lim < 0 ∧ hp.sz.min ≤ hp.sz.max)
    (hpend : 0 ≤ hp.sz.min) (h : hpackEncodeResize hp = .ok () hp') :
    hp.Signalled p hp' ∧ hp'.ctx.canUpd = false := by
  rw [hpackEncodeResize, bind_apply, get_apply, Out.bind_ok, when_apply,
    if_pos ⟨hcan, hpend⟩] at h
  obtain ⟨hle, h⟩ := assert_bind_eq_ok h
  obtain ⟨_, hp₁, h₁, h⟩ := bind_eq_ok h
  rw [bind_apply, get_apply, Out.bind_ok] at h
  obtain ⟨heq, h⟩ := assert_bind_eq_ok h
  obtain ⟨_, hp₂, h₂, h⟩ := bind_eq_ok h
  rw [bind_apply, get_apply, Out.bind_ok] at h
  obtain ⟨hclosed, hend⟩ := assert_eq_ok (show assert (hp₂.ctx.canUpd = false) hp₂ = .ok () hp'
    from h)
  subst hend
  refine ⟨?_, hclosed⟩
  have hpends := hs.resize
  cases hres : p.resize with
  | none =>
    rw [hres] at hpends
    exact absurd hpends.1 (by omega)
  | some r =>
    obtain ⟨m, n⟩ := r
    rw [hres] at hpends
    obtain ⟨hmin, hnxt, hmn⟩ := hpends
    by_cases hlt : m < n
    · obtain ⟨hlim, hmax⟩ := htwice (by omega)
      exact hpackEncodeResize_twice hs ho hpeer hres hlt hlim hmax h₁ h₂
    · obtain rfl : m = n := by omega
      exact hpackEncodeResize_once hs ho hpeer hres h₁ h₂

/-- The update that signals a limit, when no resize did. -/
theorem hpackEncodeLimit_wire (hs : hp.Speaks p) (ho : hp.Open) (hcan : hp.ctx.canUpd = true)
    (hpeer : p.canUpd = true) (hpend : hp.sz.min < 0) (h : hpackEncodeLimit hp = .ok () hp') :
    hp.Signalled p hp' := by
  have hset : p.resize = none := by
    cases hres : p.resize with
    | none => rfl
    | some r =>
      have hpends := hs.resize
      rw [hres] at hpends
      exact absurd hpends.1 (by omega)
  obtain ⟨hmin, hnxt⟩ : hp.sz.Pends none := hset ▸ hs.resize
  have hkeep : ¬ (0 ≤ hp.sz.cap ∧ hp.sz.cap.toNat < hp.sz.max) → hp.Signalled p hp := by
    intro hno
    have hoct : hp.sz.updates = [] := by rw [Size.updates, if_neg (by omega), if_neg hno]
    have hk : hp.sz.target = hp.sz.limit := by rw [Size.target, if_neg (by omega), if_neg hno]
    exact ⟨hoct ▸ .refl ho, hk.symm, rfl, p, hs, hset, fun off => ⟨[], hoct ▸ .nil off p⟩⟩
  rw [hpackEncodeLimit, bind_apply, get_apply, Out.bind_ok, when_apply] at h
  by_cases hcap : 0 ≤ hp.sz.cap
  · rw [if_pos ⟨hcan, hcap⟩] at h
    obtain ⟨hlim, h⟩ := assert_bind_eq_ok h
    rw [when_apply] at h
    by_cases hlt : hp.sz.cap.toNat < hp.sz.max
    · rw [if_pos hlt] at h
      have hk : hp.sz.target = hp.sz.cap.toNat := by
        rw [Size.target, if_neg (by omega), if_pos ⟨hcap, hlt⟩]
      obtain ⟨_, hp₁, h₁, h₂⟩ := bind_eq_ok h
      obtain ⟨hem, hs₁, hlimit, htbl⟩ := hpackEncodeUpdate_limit hs.toDrives ho hs.mem hs.max_le
        hs.max hset hmin hnxt hcap hlt h₁
      cases h₂
      have hn : hp.sz.cap.toNat ≤ uint16Max := by
        have := (hpackEncodeUpdate_ok h₁).2.2.1
        omega
      have hoct : updateOctets hp.sz.updates = hpiOctets .upd hp.sz.cap.toNat := by
        rw [Size.updates, if_neg (by omega), if_pos ⟨hcap, hlt⟩, hk]
        exact List.append_nil _
      rw [← hoct] at hem
      refine ⟨hem.recorded, hlimit.trans hk.symm, htbl, _, hs₁, hset, fun off => ?_⟩
      rw [hoct]
      exact Peer.Encodes.size off hn hpeer (.limit hset (by rw [← hs.max]; exact hlt.le))
    · rw [if_neg hlt] at h
      cases h
      exact hkeep fun hc => hlt hc.2
  · rw [if_neg fun hc => hcap hc.2] at h
    cases h
    exact hkeep fun hc => hcap hc.1

end Cashpack
