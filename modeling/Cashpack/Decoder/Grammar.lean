import Mathlib.Computability.RegularExpressions
import Mathlib.Data.List.Chain
import Cashpack.Decoder.Events

/-!
# The grammar of events

The manual of `hpack_decode` gives the events of a block as a regular expression, in which the
entries a field evicts are notified before its name.  `HPT_index` only makes room once the name
and the value were notified.

## Main results

* `InTurns.told` : the events of a block are those of its representations, one after the other.
* `mem_eventGrammar` : the words of the grammar, representation by representation.
* `event_grammar` : a block that has a field follows the grammar if and only if no field evicts
  an entry and no update comes after a field.
-/

namespace Cashpack

open Prog RegularExpression

variable {hp hp' hp₀ hpn hc hl : Hpack} {dec : Decoding} {hls : List Hpack}

/-! ### The grammar -/

section

variable {α : Type} (r : RegularExpression α)

/-- `r?`. -/
def optional : RegularExpression α := 1 + r

/-- `r+`. -/
def oneOrMore : RegularExpression α := r * r.star

/-- The letter `a`, if `b`. -/
def maybe (b : Bool) (a : α) : List α := if b then [a] else []

theorem mem_optional {w : List α} : w ∈ (optional r).matches' ↔ w = [] ∨ w ∈ r.matches' :=
  Iff.rfl

theorem mem_optional_char {w : List α} {a : α} :
    w ∈ (optional (char a)).matches' ↔ ∃ b, w = maybe b a := by
  rw [mem_optional]
  constructor
  · rintro (rfl | hw)
    · exact ⟨false, rfl⟩
    · exact ⟨true, hw⟩
  · rintro ⟨b, rfl⟩
    cases b
    · exact Or.inl rfl
    · exact Or.inr rfl

theorem mem_oneOrMore {w : List α} :
    w ∈ (oneOrMore r).matches' ↔ ∃ ws : List (List α), ws ≠ [] ∧ (∀ v ∈ ws, v ∈ r.matches') ∧
      w = ws.flatten := by
  rw [oneOrMore, matches'_mul, matches'_star, Language.mem_mul]
  constructor
  · rintro ⟨v, hv, w', hw', rfl⟩
    obtain ⟨ws, rfl, hws⟩ := Language.mem_kstar.1 hw'
    exact ⟨v :: ws, List.cons_ne_nil _ _, List.forall_mem_cons.2 ⟨hv, hws⟩, rfl⟩
  · rintro ⟨ws, hne, hws, rfl⟩
    obtain ⟨v, ws, rfl⟩ := List.exists_cons_of_ne_nil hne
    obtain ⟨hv, hws⟩ := List.forall_mem_cons.1 hws
    exact ⟨v, hv, ws.flatten, Language.join_mem_kstar hws, rfl⟩

theorem mem_char_mul {w : List α} {a : α} :
    w ∈ (char a * r).matches' ↔ ∃ v ∈ r.matches', w = a :: v := by
  rw [matches'_mul, Language.mem_mul]
  constructor
  · rintro ⟨u, rfl, v, hv, rfl⟩
    exact ⟨v, hv, rfl⟩
  · rintro ⟨v, hv, rfl⟩
    exact ⟨[a], rfl, v, hv, rfl⟩

theorem mem_optional_char_mul {w : List α} {a : α} :
    w ∈ (optional (char a) * r).matches' ↔ ∃ b, ∃ v ∈ r.matches', w = maybe b a ++ v := by
  rw [matches'_mul, Language.mem_mul]
  constructor
  · rintro ⟨u, hu, v, hv, rfl⟩
    obtain ⟨b, rfl⟩ := mem_optional_char.1 hu
    exact ⟨b, v, hv, rfl⟩
  · rintro ⟨b, v, hv, rfl⟩
    exact ⟨_, mem_optional_char.2 ⟨b, rfl⟩, v, hv, rfl⟩

end

/-- The events of a size update, `E?T`. -/
def updateEvents : RegularExpression EvtKind := optional (char .evict) * char .table

/-- The events of a field, `Fn?E?NVI?`. -/
def fieldEvents : RegularExpression EvtKind :=
  char .field * (optional (char .never) * (optional (char .evict) *
    (char .name * (char .value * optional (char .index)))))

/-- The events of a block that has a field, `(E?T(E?T)?)?(Fn?E?NVI?)+`. -/
def eventGrammar : RegularExpression EvtKind :=
  optional (updateEvents * optional updateEvents) * oneOrMore fieldEvents

theorem mem_updateEvents {w : List EvtKind} :
    w ∈ updateEvents.matches' ↔ ∃ e, w = maybe e .evict ++ [.table] := by
  rw [updateEvents, mem_optional_char_mul]
  constructor
  · rintro ⟨e, v, rfl, rfl⟩
    exact ⟨e, rfl⟩
  · rintro ⟨e, rfl⟩
    exact ⟨e, _, rfl, rfl⟩

theorem mem_fieldEvents {w : List EvtKind} :
    w ∈ fieldEvents.matches' ↔ ∃ n e i, w = .field :: (maybe n .never ++ (maybe e .evict ++
      .name :: .value :: maybe i .index)) := by
  simp only [fieldEvents, mem_char_mul, mem_optional_char_mul, mem_optional_char]
  constructor
  · rintro ⟨_, ⟨n, _, ⟨e, _, ⟨_, ⟨_, ⟨i, rfl⟩, rfl⟩, rfl⟩, rfl⟩, rfl⟩, rfl⟩
    exact ⟨n, e, i, rfl⟩
  · rintro ⟨n, e, i, rfl⟩
    exact ⟨_, ⟨n, _, ⟨e, _, ⟨_, ⟨_, ⟨i, rfl⟩, rfl⟩, rfl⟩, rfl⟩, rfl⟩, rfl⟩

/-- At most two updates come first, then fields. -/
theorem mem_eventGrammar {w : List EvtKind} :
    w ∈ eventGrammar.matches' ↔ ∃ us fs : List (List EvtKind), us.length ≤ 2 ∧
      (∀ u ∈ us, u ∈ updateEvents.matches') ∧ fs ≠ [] ∧ (∀ f ∈ fs, f ∈ fieldEvents.matches') ∧
      w = (us ++ fs).flatten := by
  rw [eventGrammar, matches'_mul, Language.mem_mul]
  simp only [mem_optional, mem_oneOrMore, matches'_mul, Language.mem_mul]
  constructor
  · rintro ⟨v, hv, _, ⟨fs, hne, hfs, rfl⟩, rfl⟩
    rcases hv with rfl | ⟨u, hu, u', rfl | hu', rfl⟩
    · exact ⟨[], fs, by decide, by simp, hne, hfs, by simp⟩
    · exact ⟨[u], fs, by simp, by simpa using hu, hne, hfs, by simp⟩
    · exact ⟨[u, u'], fs, by simp, by simpa using ⟨hu, hu'⟩, hne, hfs, by simp⟩
  · rintro ⟨us, fs, hlen, hus, hne, hfs, rfl⟩
    refine ⟨us.flatten, ?_, fs.flatten, ⟨fs, hne, hfs, rfl⟩, List.flatten_append.symm⟩
    match us, hlen, hus with
    | [], _, _ => exact Or.inl rfl
    | [u], _, hus => exact Or.inr ⟨u, hus u (by simp), [], Or.inl rfl, by simp⟩
    | [u, u'], _, hus =>
      exact Or.inr ⟨u, hus u (by simp), u', Or.inr (hus u' (by simp)), by simp⟩

/-! ### Which events follow which -/

/-- After the value of a field, no entry is evicted and the table is not resized. -/
def Follows (x y : EvtKind) : Prop := x ∈ [.value, .index] → y ∉ [.evict, .table]

instance : DecidableRel Follows := fun _ _ => inferInstanceAs (Decidable (_ → _))

/-- The events of an update. -/
theorem updateEvents_shape {w : List EvtKind} (h : w ∈ updateEvents.matches') :
    w.IsChain Follows ∧ w.getLast? = some .table ∧ ∃ x ∈ w.head?, x ∈ [.evict, .table] := by
  obtain ⟨e, rfl⟩ := mem_updateEvents.1 h
  cases e <;> decide

/-- The events of a field. -/
theorem fieldEvents_shape {w : List EvtKind} (h : w ∈ fieldEvents.matches') :
    w.IsChain Follows ∧ w.head? = some .field ∧ ∃ x ∈ w.getLast?, x ∈ [.value, .index] := by
  obtain ⟨n, e, i, rfl⟩ := mem_fieldEvents.1 h
  cases n <;> cases e <;> cases i <;> decide

/-- No event of the grammar comes too late. -/
theorem eventGrammar_follows {w : List EvtKind} (h : w ∈ eventGrammar.matches') :
    w.IsChain Follows := by
  obtain ⟨us, fs, -, hus, -, hfs, rfl⟩ := mem_eventGrammar.1 h
  have hne : [] ∉ us ++ fs := by
    intro hmem
    rcases List.mem_append.1 hmem with hmem | hmem
    · cases (updateEvents_shape (hus _ hmem)).2.1
    · cases (fieldEvents_shape (hfs _ hmem)).2.1
  have hlast : ∀ u ∈ us, ∀ v : List EvtKind, ∀ x ∈ u.getLast?, ∀ y ∈ v.head?, Follows x y := by
    intro u hu v x hx y _ hxy
    rw [(updateEvents_shape (hus u hu)).2.1] at hx
    cases hx
    exact absurd hxy (by decide)
  have hhead : ∀ u : List EvtKind, ∀ f ∈ fs, ∀ x ∈ u.getLast?, ∀ y ∈ f.head?, Follows x y := by
    intro u f hf x _ y hy _
    rw [(fieldEvents_shape (hfs f hf)).2.1] at hy
    cases hy
    decide
  refine (List.isChain_flatten hne).2 ⟨fun w hw => ?_, List.Pairwise.isChain ?_⟩
  · rcases List.mem_append.1 hw with hw | hw
    · exact (updateEvents_shape (hus w hw)).1
    · exact (fieldEvents_shape (hfs w hw)).1
  · refine List.pairwise_append.2 ⟨?_, ?_, fun u hu f _ => hlast u hu f⟩
    · exact List.pairwise_of_forall_mem_list fun u hu v _ => hlast u hu v
    · exact List.pairwise_of_forall_mem_list fun u _ f hf => hhead u f hf

/-! ### Representations -/

/-- What a representation, decoded to its end from the state `h`, notifies. -/
inductive RepEvents (h : Hpack) : List EvtKind → Prop
  | update (e : Bool) (hf : IsUpdate h.typ) : RepEvents h (maybe e .evict ++ [.table])
  | field {ks : List EvtKind} (hf : ¬ IsUpdate h.typ) (hks : h.Inserting ks) :
    RepEvents h (opening h.typ ++ ([.name, .value] ++ ks))

/-- Before the octets `g` of a representation, those of an update are only preceded by others. -/
def UpdatesFirst (fs : List UInt8) : Prop := fs.Pairwise fun f g => IsUpdate g → IsUpdate f

instance : DecidablePred UpdatesFirst := fun _ => inferInstanceAs (Decidable (List.Pairwise _ _))

/-- An update is not inserted. -/
theorem Hpack.Evicts.not_update (h : hp.Evicts) : ¬ IsUpdate hp.typ := by
  intro hupd
  have hdyn := h.1
  rw [fieldHpp, if_neg (by simp [hupd.1]), if_neg (by simp [hupd.2.1])] at hdyn
  split at hdyn <;> cases hdyn

namespace RepEvents

variable {h : Hpack} {w : List EvtKind}

theorem of_update (hw : RepEvents h w) (hf : IsUpdate h.typ) : w ∈ updateEvents.matches' := by
  cases hw with
  | update e => exact mem_updateEvents.2 ⟨e, rfl⟩
  | field hnot => exact absurd hf hnot

/-- A field that evicts no entry follows the grammar. -/
theorem of_field (hw : RepEvents h w) (hf : ¬ IsUpdate h.typ) (hev : ¬ h.Evicts) :
    w ∈ fieldEvents.matches' := by
  cases hw with
  | update e hupd => exact absurd hupd hf
  | @field ks hnot hks =>
    obtain ⟨i, rfl⟩ : ∃ i, ks = maybe i .index := by
      rw [Hpack.Inserting] at hks
      split at hks
      · obtain ⟨evicts, fits, hiff, rfl⟩ := hks
        cases evicts
        · exact ⟨fits, rfl⟩
        · exact absurd (hiff.1 rfl) hev
      · exact ⟨false, hks⟩
    refine mem_fieldEvents.2 ⟨decide (fieldHpp h.typ = .nvr), false, i, ?_⟩
    simp [opening, maybe]

/-- A field that evicts entries does it after its value. -/
theorem not_evicts (hw : RepEvents h w) (hchain : w.IsChain Follows) : ¬ h.Evicts := by
  intro hev
  cases hw with
  | update e hupd => exact hev.not_update hupd
  | @field ks hnot hks =>
    rw [Hpack.Inserting, if_pos hev.1] at hks
    obtain ⟨evicts, fits, hiff, rfl⟩ := hks
    obtain rfl := hiff.2 hev
    have hopen : opening h.typ = [.field] := by
      rw [opening, hev.1]
      rfl
    rw [hopen] at hchain
    revert hchain
    cases fits <;> decide

end RepEvents

/-- Representations that evict no entry, with the updates first, follow the grammar. -/
theorem repEvents_grammar {ws : List (List EvtKind)} (hws : List.Forall₂ RepEvents hls ws)
    (hupd : UpdatesFirst (hls.map Hpack.typ)) (hev : ∀ h ∈ hls, ¬ h.Evicts) :
    ∃ us fs, ws = us ++ fs ∧ us.length = updates (hls.map Hpack.typ) ∧
      (∀ u ∈ us, u ∈ updateEvents.matches') ∧ (∀ f ∈ fs, f ∈ fieldEvents.matches') ∧
      ((∃ h ∈ hls, ¬ IsUpdate h.typ) → fs ≠ []) := by
  induction hws with
  | nil => exact ⟨[], [], rfl, rfl, by simp, by simp, by simp⟩
  | @cons h w hls ws hw hws ih =>
    obtain ⟨hfirst, hrest⟩ := List.pairwise_cons.1 hupd
    obtain ⟨hevh, hevs⟩ := List.forall_mem_cons.1 hev
    obtain ⟨us, fs, rfl, hlen, hus, hfs, hne⟩ := ih hrest hevs
    by_cases hf : IsUpdate h.typ
    · refine ⟨w :: us, fs, rfl, ?_, List.forall_mem_cons.2 ⟨hw.of_update hf, hus⟩, hfs, ?_⟩
      · rw [List.length_cons, hlen, updates, updates, List.map_cons,
          List.filter_cons_of_pos (by simpa using hf), List.length_cons]
      · rintro ⟨g, hg, hnot⟩
        rcases List.mem_cons.1 hg with rfl | hg
        · exact absurd hf hnot
        · exact hne ⟨g, hg, hnot⟩
    · -- there is no update left
      have hzero : updates ((h :: hls).map Hpack.typ) = 0 := by
        rw [updates, List.length_eq_zero_iff, List.filter_eq_nil_iff, List.map_cons]
        refine List.forall_mem_cons.2 ⟨by simpa using hf, fun g hg hupd => ?_⟩
        exact hf (hfirst g hg (by simpa using hupd))
      have hzero' : updates (hls.map Hpack.typ) = 0 := by
        rwa [updates, List.map_cons, List.filter_cons_of_neg (by simpa using hf)] at hzero
      obtain rfl : us = [] := List.length_eq_zero_iff.1 (hlen.trans hzero')
      refine ⟨[], w :: fs, rfl, hzero.symm, by simp, ?_, fun _ => List.cons_ne_nil _ _⟩
      exact List.forall_mem_cons.2 ⟨hw.of_field hf hevh, hfs⟩

/-- When the events follow each other, no entry is evicted by a field and the updates come
first. -/
theorem repEvents_follows {ws : List (List EvtKind)} (hws : List.Forall₂ RepEvents hls ws)
    (hchain : ws.flatten.IsChain Follows) :
    UpdatesFirst (hls.map Hpack.typ) ∧ ∀ h ∈ hls, ¬ h.Evicts := by
  have : Trans (fun f g : UInt8 => IsUpdate g → IsUpdate f) (fun f g => IsUpdate g → IsUpdate f)
      fun f g => IsUpdate g → IsUpdate f := ⟨fun h₁ h₂ h => h₁ (h₂ h)⟩
  rw [UpdatesFirst, ← List.isChain_iff_pairwise]
  induction hws with
  | nil => exact ⟨.nil, by simp⟩
  | @cons h w hls ws hw hws ih =>
    rw [List.flatten_cons, List.isChain_append] at hchain
    obtain ⟨hhead, htail, hnext⟩ := hchain
    obtain ⟨hfirst, hev⟩ := ih htail
    have hevh : ¬ h.Evicts := hw.not_evicts hhead
    refine ⟨?_, List.forall_mem_cons.2 ⟨hevh, hev⟩⟩
    rw [List.map_cons, List.isChain_cons]
    refine ⟨fun f hf hupd => ?_, hfirst⟩
    by_contra hnot
    -- the update after this field is notified too late
    cases hws with
    | nil => cases hf
    | @cons g w' hls ws hw' hws =>
      cases hf
      obtain ⟨-, -, x, hx, hlast⟩ := fieldEvents_shape (hw.of_field hnot hevh)
      obtain ⟨-, -, y, hy, hlate⟩ := updateEvents_shape (hw'.of_update hupd)
      refine hnext x hx y ?_ hlast hlate
      rw [List.flatten_cons, List.head?_append, hy]
      rfl

/-! ### Blocks -/

/-- A block is being decoded since the state `hp₀`, as in `InBlock`: the turns that decoded a
representation to its end were made in the states `hls`. -/
inductive InTurns (hp₀ : Hpack) : List Hpack → Decoding → Hpack → Hpack → Prop
  | start {dec : Decoding} {hl : Hpack} (hres : hp₀.ctx.res = .ok) (h : Enters dec hp₀ hl) :
    InTurns hp₀ [] dec hp₀ hl
  | turn {hls : List Hpack} {dec : Decoding} {hc hl hl' : Hpack}
    (before : InTurns hp₀ hls dec hc hl) (hblk : hl.ctx.blk ≠ [])
    (h : hpackDecodeTurn dec.cut hl = .ok none hl') : InTurns hp₀ (hls ++ [hl]) dec hc hl'
  | resume {hls : List Hpack} {dec dec' : Decoding} {hc hl hl' : Hpack}
    (before : InTurns hp₀ hls dec hc hl) (hblk : hl.ctx.blk = []) (hres : hl.ctx.res = .blk)
    (h : Enters dec' hl hl') : InTurns hp₀ hls dec' hl hl'
  | within {hls : List Hpack} {dec dec' : Decoding} {hc hl hc' hl' : Hpack}
    (before : InTurns hp₀ hls dec hc hl) (hblk : hl.ctx.blk ≠ [])
    (hend : hpackDecodeTurn dec.cut hl = .ok (some .blk) hc') (h : Enters dec' hc' hl') :
    InTurns hp₀ hls dec' hc' hl'

theorem InTurns.inBlock (h : InTurns hp₀ hls dec hc hl) :
    InBlock hp₀ (hls.map Hpack.typ) dec hc hl := by
  induction h with
  | start hres h => exact .start hres h
  | turn _ hblk h ih =>
    rw [List.map_append]
    exact ih.turn hblk h
  | resume _ hblk hres h ih => exact ih.resume hblk hres h
  | within _ hblk hend h ih => exact ih.within hblk hend h

/-- The events of the field that is decoded, if it was announced by a part before. -/
def Hpack.announced (hp : Hpack) : List EvtKind :=
  if hp.state.stp = .fldInt then [] else opening hp.state.typ

/-- The events since the state `hp₀`, when no message is skipped: those of the representations
decoded in the states `hls`, then of the one that goes on. -/
def TellsBlock (hp₀ : Hpack) (hls : List Hpack) (hp : Hpack) : Prop :=
  hp.ctx.tooBig = false → ∃ ws, List.Forall₂ RepEvents hls ws ∧
    Tells (ws.flatten ++ hp.announced) hp₀ hp

/-- A call that resumes a block changes nothing of this. -/
theorem TellsBlock.resumed (h : TellsBlock hp₀ hls hc) (hres : hc.ctx.res = .blk)
    (henter : Enters dec hc hl) : TellsBlock hp₀ hls hl := by
  obtain ⟨hb, hbegin, rfl⟩ := henter.enter
  have hb' := hpackDecodeBegin_holds dec hc
  rw [hbegin] at hb'
  rcases hb' with ⟨-, -, rfl⟩ | ⟨hok, -, -⟩
  · intro hb
    obtain ⟨ws, hws, htells⟩ := h hb
    exact ⟨ws, hws, htells.1.congr rfl rfl rfl rfl, htells.2⟩
  · rw [hres] at hok
    cases hok

/-- No room was made, nor before. -/
theorem Told.tells_of {ks : List EvtKind} (h : Told ks hp hp') (hb : hp'.ctx.tooBig = false) :
    Tells ks hp hp' := by
  refine ⟨h, hb.trans ?_⟩
  by_contra hb'
  have := h.tooBig (by simpa using Ne.symm hb')
  rw [hb] at this
  cases this

theorem Tells.append {ks ks' : List EvtKind} {hp'' : Hpack} (h : Tells ks hp hp')
    (h' : Tells ks' hp' hp'') : Tells (ks ++ ks') hp hp'' :=
  ⟨h.1.tells h', h'.2.trans h.2⟩

/-- What is announced of a field is said once. -/
theorem Hpack.announced_opens (hl : Hpack) : hl.announced ++ hl.opens = opening hl.typ := by
  rw [Hpack.announced, Hpack.opens]
  by_cases hstp : hl.state.stp = .fldInt
  · rw [if_pos hstp, if_pos hstp, List.nil_append]
  · rw [if_neg hstp, if_neg hstp, List.append_nil, Hpack.typ, if_neg fun h => hstp h.2]

/-- The turn that decodes a representation to its end. -/
theorem TellsBlock.turn (h : TellsBlock hp₀ hls hl) (hd : hl.Decoder False)
    (hs : hl.state.Saved) (hblk : hl.ctx.blk ≠ []) (hstart : hp'.state.AtStart)
    (hturn : hpackDecodeTurn dec.cut hl = .ok none hp') : TellsBlock hp₀ (hls ++ [hl]) hp' := by
  intro hb
  have hdone : hp'.announced = [] := if_pos hstart.stp
  simp only [hdone, List.append_nil]
  by_cases hf : IsUpdate hl.typ
  · cases hpackDecodeTurn_update hd hs hblk hf hturn with
    | @done _ evicts told =>
      obtain ⟨ws, hws, htells⟩ := h (told.2.symm.trans hb)
      have hnone : hl.announced = [] := if_pos (hf.stp hs)
      rw [hnone, List.append_nil] at htells
      refine ⟨ws ++ [maybe evicts .evict ++ [.table]], ?_, ?_⟩
      · exact List.rel_append hws (.cons (.update evicts hf) .nil)
      · rw [List.flatten_append, List.flatten_singleton]
        exact htells.append told
  · cases hpackDecodeTurn_field hd hs hblk hf hturn with
    | @done hp₁ _ ks announced told hks =>
      have htold := told.tells_of hb
      obtain ⟨ws, hws, htells⟩ := h (by rw [← announced.2, ← htold.2, hb])
      refine ⟨ws ++ [opening hl.typ ++ ([.name, .value] ++ ks)], ?_, ?_⟩
      · exact List.rel_append hws (.cons (.field hf hks) .nil)
      · have hopen := htells.append announced
        rw [List.append_assoc, Hpack.announced_opens] at hopen
        have hall := hopen.append htold
        rw [List.append_assoc] at hall
        rw [List.flatten_append, List.flatten_singleton]
        exact hall

/-- The turn that runs out of octets. -/
theorem TellsBlock.within (h : TellsBlock hp₀ hls hl) (hd : hl.Decoder False)
    (hs : hl.state.Saved) (hblk : hl.ctx.blk ≠ [])
    (hturn : hpackDecodeTurn dec.cut hl = .ok (some .blk) hp') : TellsBlock hp₀ hls hp' := by
  have hsilent : ∀ {hp'}, hl.state.stp = .fldInt → hp'.state.stp = .fldInt → Tells [] hl hp' →
      TellsBlock hp₀ hls hp' := by
    intro hp' hstp hstp' htells hb
    obtain ⟨ws, hws, hbefore⟩ := h (htells.2.symm.trans hb)
    have hall := hbefore.append htells
    rw [Hpack.announced, if_pos hstp, List.append_nil] at hall
    exact ⟨ws, hws, by rwa [Hpack.announced, if_pos hstp']⟩
  by_cases hf : IsUpdate hl.typ
  · cases hpackDecodeTurn_update hd hs hblk hf hturn with
    | index hstp htells => exact hsilent (hf.stp hs) hstp htells
    | refused hr => exact absurd rfl hr
  · cases hpackDecodeTurn_field hd hs hblk hf hturn with
    | index hstp hstp₀ htells => exact hsilent hstp₀ hstp htells
    | strings hstp htyp announced told =>
      intro hb
      have htold := told.tells_of hb
      obtain ⟨ws, hws, htells⟩ := h (by rw [← announced.2, ← htold.2, hb])
      have hall := (htells.append announced).append htold
      rw [List.append_nil, List.append_assoc, Hpack.announced_opens] at hall
      exact ⟨ws, hws, by rwa [Hpack.announced, if_neg hstp, htyp]⟩
    | refused hr => exact absurd rfl hr

/-- **The events of a block** are those of its representations, one after the other. -/
theorem InTurns.told (h : InTurns hp₀ hls dec hc hl) (hd : hp₀.Decoder False)
    (hbsy : hp₀.state.bsy = false) : TellsBlock hp₀ hls hl := by
  have hdec : ∀ {hls dec hc hl}, InTurns hp₀ hls dec hc hl → hl.Decoder False := fun h =>
    h.inBlock.keeps (stable_onDecoder _) fits_hptField fits_hptIndex fits_hpackDecodeUpdate hd
  induction h with
  | @start dec hl hres h =>
    obtain ⟨hb, hbegin, rfl⟩ := h.enter
    have hb' := hpackDecodeBegin_holds dec hp₀
    rw [hbegin] at hb'
    rcases hb' with ⟨hblk, -, -⟩ | ⟨-, htoo, rfl⟩
    · rw [hres] at hblk
      cases hblk
    · exact fun _ => ⟨[], .nil, (Told.refl hp₀).congr rfl rfl rfl rfl, rfl⟩
  | @turn hls dec hc hl hl' before hblk h ih =>
    have hs := (before.inBlock.saved hbsy).1
    have hend := hpackDecodeTurn_progress dec.cut hs hblk
    rw [h] at hend
    exact ih.turn (hdec before) hs hblk hend.1 h
  | @resume hls dec dec' hc hl hl' before hblk hres h ih => exact ih.resumed hres h
  | @within hls dec dec' hc hl hc' hl' before hblk hend h ih =>
    have hs := (before.inBlock.saved hbsy).1
    have hmid := hpackDecodeTurn_progress dec.cut hs hblk
    rw [hend] at hmid
    exact (ih.within (hdec before) hs hblk hend).resumed hmid.2.2 h

theorem Size.required_le (sz : Size) : sz.required ≤ 2 := by
  rw [Size.required]
  split
  · decide
  · split <;> decide

/-- A block has at most two updates. -/
theorem InBlock.updates_le {fs : List UInt8} (h : InBlock hp₀ fs dec hc hl)
    (hbsy : hp₀.state.bsy = false) (hpend : hp₀.sz.Pend) (hext : hp₀.ctx.fld.Ext) :
    updates fs ≤ 2 := by
  induction h with
  | start => decide
  | resume _ _ _ _ ih => exact ih
  | within _ _ _ _ ih => exact ih
  | @turn fs dec hc hl hl' before hblk h ih =>
    rw [updates_append]
    split
    · rename_i hupd
      by_contra hgt
      -- the third would be refused
      have hcan := (before.ordered hbsy hpend hext).last (by omega)
        (hp₀.sz.required_le.trans (by omega))
      obtain ⟨hp', hturn, -⟩ := hpackDecodeTurn_upd dec.cut hblk hupd hcan
      rw [h] at hturn
      cases hturn
    · exact ih

/-- A block is decoded since the state `hp₀` by calls of `hpack_decode`, and the last one returns
`r` and leaves the state `hp`. -/
inductive Decodes (hp₀ : Hpack) : Res → Hpack → Prop
  | first {dec : Decoding} {r : Res} {hp : Hpack} (hres : hp₀.ctx.res = .ok)
    (h : hpackDecode dec hp₀ = .ok r hp) : Decodes hp₀ r hp
  | next {dec : Decoding} {r : Res} {hp hp' : Hpack} (before : Decodes hp₀ .blk hp)
    (h : hpackDecode dec hp = .ok r hp') : Decodes hp₀ r hp'

/-- A call that is not refused starts its loop. -/
theorem hpackDecode_enters {r : Res} (hr : r ≠ .arg) (h : hpackDecode dec hc = .ok r hp') :
    ∃ hl, Enters dec hc hl := by
  cases hpackDecode_called h with
  | invalid => exact absurd rfl hr
  | refused => exact absurd rfl hr
  | entered henter => exact ⟨_, henter⟩

/-- Where a call that returns OK or BLK ends: between two representations, or within one. -/
inductive Ends (hp₀ : Hpack) (dec : Decoding) (hc : Hpack) (r : Res) (hp : Hpack) : Prop
  | between {hls : List Hpack} (h : InTurns hp₀ hls dec hc hp) (hblk : hp.ctx.blk = [])
    (hres : hp.ctx.res = r) : Ends hp₀ dec hc r hp
  | within {hls : List Hpack} {hl : Hpack} (h : InTurns hp₀ hls dec hc hl)
    (hblk : hl.ctx.blk ≠ []) (hend : hpackDecodeTurn dec.cut hl = .ok (some .blk) hp)
    (hr : r = .blk) : Ends hp₀ dec hc r hp

theorem InTurns.loop {r : Res} {n : ℕ} (h : InTurns hp₀ hls dec hc hl)
    (hbsy : hp₀.state.bsy = false) (hr : r = .ok ∨ r = .blk)
    (hrun : hpackDecodeLoop dec.cut n hl = .ok r hp') : Ends hp₀ dec hc r hp' := by
  induction n generalizing hls hl with
  | zero => cases hrun
  | succ n ih =>
    rw [hpackDecodeLoop, bind_apply, get_apply, Out.bind_ok, ite_run] at hrun
    split at hrun
    · rename_i hblk
      rw [hpackDecodeEnd, bind_apply, get_apply, Out.bind_ok, bind_apply, assert_apply] at hrun
      split at hrun
      swap
      · cases hrun
      obtain ⟨hres, rfl⟩ := Out.ok.inj hrun
      split at hres
      · rcases hr with rfl | rfl <;> cases hres
      · exact .between h hblk hres
    · rename_i hblk
      have hend := hpackDecodeTurn_progress dec.cut (h.inBlock.saved hbsy).1 hblk
      obtain ⟨r', hl', hturn, hnext⟩ := bind_eq_ok hrun
      cases r' with
      | none => exact ih (h.turn hblk hturn) hnext
      | some r' =>
        obtain ⟨rfl, rfl⟩ := Out.ok.inj hnext
        rcases hr with rfl | rfl
        · rw [hturn] at hend
          exact absurd hend.1 (by decide)
        · exact .within h hblk hturn rfl

/-- The turns of a block that was decoded by these calls. -/
theorem Decodes.ends {r : Res} (h : Decodes hp₀ r hp') (hbsy : hp₀.state.bsy = false)
    (hr : r = .ok ∨ r = .blk) :
    ∃ dec hc, hpackDecode dec hc = .ok r hp' ∧ Ends hp₀ dec hc r hp' := by
  have hne : ∀ {r : Res}, r = .ok ∨ r = .blk → r ≠ .arg := by
    rintro r (rfl | rfl) <;> decide
  induction h with
  | @first dec r hp hres h =>
    obtain ⟨hl, henter⟩ := hpackDecode_enters (hne hr) h
    have hrun := h
    rw [henter.decode_eq] at hrun
    exact ⟨dec, hp₀, h, InTurns.loop (.start hres henter) hbsy hr hrun⟩
  | @next dec r hp hp' before h ih =>
    obtain ⟨hl, henter⟩ := hpackDecode_enters (hne hr) h
    obtain ⟨dec', hc, -, hends⟩ := ih (Or.inr rfl)
    refine ⟨dec, hp, h, ?_⟩
    have hturns : ∃ hls, InTurns hp₀ hls dec hp hl := by
      cases hends with
      | between hb hblk hres => exact ⟨_, hb.resume hblk hres henter⟩
      | within hb hblk hend => exact ⟨_, hb.within hblk hend henter⟩
    obtain ⟨hls, hturns⟩ := hturns
    rw [henter.decode_eq] at h
    exact hturns.loop hbsy hr h

/-- Every complete block has its turns. -/
theorem Decodes.turns (h : Decodes hp₀ .ok hp') (hbsy : hp₀.state.bsy = false) :
    ∃ hls dec hc, InTurns hp₀ hls dec hc hp' ∧ hp'.ctx.blk = [] ∧
      hpackDecode dec hc = .ok .ok hp' := by
  obtain ⟨dec, hc, hcall, hends⟩ := h.ends hbsy (Or.inl rfl)
  cases hends with
  | between hturns hblk => exact ⟨_, dec, hc, hturns, hblk, hcall⟩
  | within _ _ _ hr => cases hr

/-- At the end of the block, a call that returns OK leaves its loop where it stands. -/
theorem InBlock.ok {fs : List UInt8} (h : InBlock hp₀ fs dec hc hl)
    (hbsy : hp₀.state.bsy = false) (hblk : hl.ctx.blk = [])
    (hok : hpackDecode dec hc = .ok .ok hp') : hp' = hl ∧ hl.ctx.tooBig = false := by
  have hlen : hl.ctx.blk.length < 1 := by
    rw [hblk]
    exact Nat.one_pos
  rw [h.decode_eq hbsy hlen, hpackDecodeLoop, bind_apply, get_apply, Out.bind_ok, ite_run,
    if_pos hblk, hpackDecodeEnd, bind_apply, get_apply, Out.bind_ok, bind_apply, assert_apply] at hok
  split at hok
  · obtain ⟨hres, rfl⟩ := Out.ok.inj hok
    refine ⟨rfl, ?_⟩
    by_contra hb
    split at hres
    · cases hres
    · rename_i hskp
      exact hskp ⟨by simpa using hb, hres⟩
  · cases hok

/-- **The grammar of events**: a block was decoded since the state `hp₀` of an idle decoder, and
has a field.  Its events follow the grammar of the manual if and only if no update comes after
a field and no field is inserted with an eviction. -/
theorem event_grammar (hnew : NewDecoder hpn) (hrun : Reach DecOp.exec (fun _ _ => True) hpn hp₀)
    (hidle : hp₀.Idle) (hblock : InTurns hp₀ hls dec hc hl) (hblk : hl.ctx.blk = [])
    (hok : hpackDecode dec hc = .ok .ok hp') (hfield : ∃ h ∈ hls, ¬ IsUpdate h.typ) :
    ∃ evts, hp'.ctx.log = hp₀.ctx.log ++ evts ∧
      (evts.map Event.kind ∈ eventGrammar.matches' ↔
        UpdatesFirst (hls.map Hpack.typ) ∧ ∀ h ∈ hls, ¬ h.Evicts) := by
  have hdec : hp₀.Decoder False := decoder_sound hnew hrun
  obtain ⟨rfl, hb⟩ := hblock.inBlock.ok hidle.bsy hblk hok
  obtain ⟨ws, hws, htells⟩ := hblock.told hdec hidle.bsy hb
  have hstart := (hblock.inBlock.saved hidle.bsy).2 hblk
  rw [Hpack.announced, if_pos hstart.stp, List.append_nil] at htells
  obtain ⟨evts, hkinds, hlog⟩ := htells.log hidle.tooBig
  refine ⟨evts, hlog, ?_⟩
  rw [hkinds]
  constructor
  · exact fun h => repEvents_follows hws (eventGrammar_follows h)
  · rintro ⟨hfirst, hev⟩
    obtain ⟨us, fs, rfl, hlen, hus, hfs, hne⟩ := repEvents_grammar hws hfirst hev
    have hle := hblock.inBlock.updates_le hidle.bsy hdec.1.1.pend hdec.2
    exact mem_eventGrammar.2 ⟨us, fs, hlen ▸ hle, hus, hne hfield, hfs, rfl⟩

/-- The field `a: b`, to insert, twice. -/
def insertedTwice : Decoding :=
  ⟨[0x40, 0x01, 0x61, 0x01, 0x62, 0x40, 0x01, 0x61, 0x01, 0x62], 1, 100, true, false⟩

/-- The field `:method: GET`. -/
def indexedOnce : Decoding := ⟨[0x82], 1, 100, true, false⟩

/-- A decoder that was given these blocks. -/
def decoderAfter (dec : Decoding) : Hpack :=
  match hpackDecode dec smallDecoder with
  | .ok _ hp => hp
  | _ => smallDecoder

theorem event_grammar_indexed :
    ∃ evts, (decoderAfter indexedOnce).ctx.log = [] ++ evts ∧
      evts.map Event.kind ∈ eventGrammar.matches' := by
  let hl : Hpack := hpackDecodeArg indexedOnce (smallDecoder.begin indexedOnce)
  have hval : indexedOnce.Valid := ⟨by decide, by decide, by decide, rfl⟩
  have hstart : InTurns smallDecoder [] indexedOnce smallDecoder hl :=
    .start rfl ⟨rfl, hval, _, rfl, rfl⟩
  have hturn : InTurns smallDecoder [hl] indexedOnce smallDecoder (decoderAfter indexedOnce) :=
    hstart.turn (by decide) (by decide +kernel)
  have hok : hpackDecode indexedOnce smallDecoder = .ok .ok (decoderAfter indexedOnce) := by
    decide +kernel
  obtain ⟨evts, hlog, hiff⟩ := event_grammar (.decoder smallDecoder_new) (.refl _)
    ⟨rfl, rfl, rfl, rfl, rfl⟩ hturn (by decide +kernel) hok
    ⟨hl, List.mem_singleton_self hl, by decide⟩
  refine ⟨evts, hlog, hiff.2 ⟨by decide, fun h hmem => ?_⟩⟩
  obtain rfl := List.mem_singleton.1 hmem
  exact fun hev => absurd hev.1 (by decide)

/-- A field that evicts an entry notifies it after its value, and an update that is accepted
after a field notifies it after this field. -/
theorem event_grammar_false :
    (hpackDecode insertedTwice smallDecoder = .ok .ok (decoderAfter insertedTwice) ∧
      (decoderAfter insertedTwice).ctx.log.map Event.kind =
        [.field, .name, .value, .index, .field, .name, .value, .evict, .index] ∧
      (decoderAfter insertedTwice).ctx.log.map Event.kind ∉ eventGrammar.matches') ∧
    (hpackDecode ⟨[0xa0, 0x20], 1, 100, true, false⟩ smallDecoder =
        .ok .ok (decoderAfter ⟨[0xa0, 0x20], 1, 100, true, false⟩) ∧
      (decoderAfter ⟨[0xa0, 0x20], 1, 100, true, false⟩).ctx.log.map Event.kind ∉
        eventGrammar.matches') := by
  have hlate : ∀ {w : List EvtKind}, ¬ w.IsChain Follows → w ∉ eventGrammar.matches' :=
    fun h hmem => h (eventGrammar_follows hmem)
  refine ⟨⟨by decide +kernel, by decide +kernel, hlate (by decide +kernel)⟩, by decide +kernel,
    hlate (by decide +kernel)⟩

end Cashpack
