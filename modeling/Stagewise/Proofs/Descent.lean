import Stagewise.Proofs.Crowding

/-! Ranks of questions. What is asked for an answer ranks lower than the question, as long as the
answers to questions of lower rank keep to the room of what they are made of; and then the answer
one step later keeps to its room, too. -/

set_option autoImplicit false

namespace Stagewise.Constraint

namespace Room

variable {r : Room} {e : Nat}

def extent (r : Room) : Nat := r.here + r.below.sum

def phase (r : Room) : Nat := r.extent + r.below.length

@[simp] lemma phase_older (r : Room) : r.older.phase = r.phase := rfl

lemma extent_inNeg (h : 0 < r.here) : r.inNeg.extent + 1 = r.extent := by
  simp only [extent, inNeg]
  omega

lemma phase_inNeg (h : 0 < r.here) : r.inNeg.phase < r.phase := by
  simp only [phase, extent, inNeg]
  omega

lemma extent_inPart (h : r.below ≠ []) : r.inPart.extent ≤ r.extent := by
  obtain ⟨n, ns, hb⟩ := List.exists_cons_of_ne_nil h
  simp only [extent, inPart, hb, List.headD_cons, List.tail_cons, List.sum_cons]
  omega

lemma phase_inPart (h : r.below ≠ []) : r.inPart.phase < r.phase := by
  obtain ⟨n, ns, hb⟩ := List.exists_cons_of_ne_nil h
  simp only [phase, extent, inPart, hb, List.headD_cons, List.tail_cons, List.sum_cons,
    List.length_cons]
  omega

lemma extent_withHere (h : e ≤ r.here) : (r.withHere e).extent ≤ r.extent := by
  simp only [extent, withHere]
  omega

lemma phase_withHere (h : e ≤ r.here) : (r.withHere e).phase ≤ r.phase := by
  simp only [phase, extent, withHere]
  omega

end Room

structure Scale where
  base : Nat
  span : Nat

namespace Scale

def top (k : Scale) : Nat := k.base * Nat.fib (k.span + 3)

def comparing (k : Scale) : Nat := 4 * k.top + 3

def conjoining (k : Scale) : Nat := k.comparing + 1 + (k.span + 2) * (k.top + 1)

def period (k : Scale) : Nat := k.conjoining + 2 * k.top + 3

lemma mul_le_conjoining (k : Scale) {e : Nat} (h : e ≤ k.span + 1) :
    k.comparing + 1 + e * (k.top + 1) + k.top < k.conjoining := by
  have hmul : e * (k.top + 1) ≤ (k.span + 1) * (k.top + 1) := Nat.mul_le_mul_right _ h
  have hsucc : (k.span + 2) * (k.top + 1) = (k.span + 1) * (k.top + 1) + (k.top + 1) :=
    Nat.succ_mul (k.span + 1) (k.top + 1)
  rw [conjoining]
  omega

lemma rank_lt (k : Scale) {p q x y : Nat} (h : p < q) (hx : x < k.period) :
    p * k.period + x < q * k.period + y := by
  have hmul : (p + 1) * k.period ≤ q * k.period := Nat.mul_le_mul_right _ h
  rw [Nat.succ_mul] at hmul
  omega

end Scale

/-- A room on a scale; a room of answers may be one normalisation older than one of questions. -/
structure Room.Within (r : Room) (k : Scale) (slack : Nat) : Prop where
  base : r.base ≤ k.base
  span : r.age + r.extent ≤ k.span + slack

namespace Room.Within

variable {r : Room} {k : Scale} {slack e : Nat}

lemma older (h : r.Within k 0) : r.older.Within k 1 :=
  ⟨h.base, by have := h.span; simp only [Room.older, Room.extent] at *; omega⟩

lemma inNeg (h : r.Within k 1) (hr : 0 < r.here) : r.inNeg.Within k 0 := by
  refine ⟨h.base, ?_⟩
  have hs := h.span
  have he := extent_inNeg hr
  have ha : r.inNeg.age = r.age := rfl
  omega

lemma inPart (h : r.Within k slack) (hr : r.below ≠ []) : r.inPart.Within k slack := by
  refine ⟨h.base, ?_⟩
  have hs := h.span
  have he := extent_inPart hr
  have ha : r.inPart.age = r.age := rfl
  omega

lemma withHere (h : r.Within k slack) (he : e ≤ r.here) : (r.withHere e).Within k slack := by
  refine ⟨h.base, ?_⟩
  have hs := h.span
  have hx := extent_withHere he
  have ha : (r.withHere e).age = r.age := rfl
  omega

lemma weaken (h : r.Within k 0) : r.Within k 1 := ⟨h.base, Nat.le_succ_of_le h.span⟩

lemma here_le (h : r.Within k 1) : r.here ≤ k.span + 1 := by
  have hs := h.span
  simp only [extent] at hs
  omega

lemma cap_le (h : r.Within k 1) : r.cap ≤ k.top := by
  have hs := h.span
  simp only [extent] at hs
  exact Nat.mul_le_mul h.base (Nat.fib_mono (by omega))

end Room.Within

def conjBit (c : Constraint) : Nat := if c.isConj then 1 else 0

lemma conjBit_le (c : Constraint) : c.conjBit ≤ 1 := by
  simp only [conjBit]
  split_ifs <;> omega

inductive HasWeight (r : Room) (m : Nat) : Constraint → Nat → Prop
  | plain {c : Constraint} : c.Fills r m → HasWeight r m c (2 * m + c.conjBit)
  | joint {cs : List Constraint} : (∀ c ∈ cs, c.Fills r m) → HasWeight r m (.conj cs) (2 * m + 2)

variable {r s : Room} {k : Scale} {c d : Constraint} {cs : List Constraint} {m w : Nat}

lemma HasWeight.le (h : HasWeight r m c w) : w ≤ 2 * m + 2 := by
  cases h with
  | plain => have := conjBit_le c; omega
  | joint => exact Nat.le_refl _

lemma member_weight (h : (conj cs).Fills r m) (hd : d ∈ cs) :
    ∃ n ≤ m, d.Fills r n ∧ 2 * n + d.conjBit < 2 * m + 1 := by
  have hf := fills_conj.mp h d hd
  by_cases hc : d.isConj
  · simp only [hc, if_true] at hf
    exact ⟨m - 1, Nat.sub_le m 1, hf.2, by simp only [conjBit, hc, if_true]; omega⟩
  · simp only [hc] at hf
    exact ⟨m, Nat.le_refl m, hf, by simp [conjBit, hc]⟩

lemma HasWeight.members (h : HasWeight r m (.conj cs) w) (hd : d ∈ cs) :
    ∃ n ≤ m, d.Fills r n ∧ 2 * n + d.conjBit < w := by
  cases h with
  | plain h =>
    obtain ⟨n, hn, hf, hlt⟩ := member_weight h hd
    exact ⟨n, hn, hf, by simpa [conjBit, isConj] using hlt⟩
  | joint h =>
    have := conjBit_le d
    exact ⟨m, Nat.le_refl m, h d hd, by omega⟩

lemma HasWeight.fills (h : HasWeight r m c w) (hc : c.isConj = false) : c.Fills r m := by
  cases h with
  | plain h => exact h
  | joint => simp [isConj] at hc

structure Joins (k : Scale) (r : Room) (m e h : Nat) (cs : List Constraint) : Prop where
  within : r.Within k 1
  plain : ∀ c ∈ cs, c.IsPlain
  fills : ∀ c ∈ flattenConjList [] cs, c.Fills r m
  height : m ≤ k.top
  here : e ≤ r.here
  exposes : Exposes (flattenConjList [] cs) (r.withHere e) h
  exposed : h ≤ m

def joinRank (k : Scale) (r : Room) (e h : Nat) : Nat :=
  r.phase * k.period + (k.comparing + 1 + e * (k.top + 1) + h)

/-- The rank of a question on a scale. -/
inductive Ranked (k : Scale) : Question → Nat → Prop
  | normal {r : Room} {m w : Nat} {c : Constraint} : r.Within k 0 → m ≤ r.cap → HasWeight r m c w →
      Ranked k (.normal c) (r.phase * k.period + (k.conjoining + w))
  | conj {r : Room} {m e h : Nat} {unroll : Bool} {cs : List Constraint} : Joins k r m e h cs →
      Ranked k (.conj unroll cs) (joinRank k r e h)
  | disj {r : Room} {m : Nat} {cs : List Constraint} : r.Within k 1 → m ≤ k.top →
      (∀ c ∈ cs, c.Fills r m) → Ranked k (.disj cs) (r.phase * k.period + k.comparing)
  | entails {r : Room} {m n : Nat} {assumed : Assumptions} {a b : Constraint} : r.Within k 1 →
      m ≤ k.top → n ≤ k.top → a.Fills r m → b.Fills r n →
      Ranked k (.entails assumed a b)
        (r.phase * k.period + (2 * m + a.conjBit + (2 * n + b.conjBit)))

structure Sound (k : Scale) (rank : Nat) (l : Answers) : Prop where
  normal : ∀ {r : Room} {m w : Nat} {c : Constraint}, r.Within k 0 → m ≤ r.cap →
    HasWeight r m c w → r.phase * k.period + (k.conjoining + w) < rank →
      (l.normal c).Fills r.older (m + r.spare)
  conj : ∀ {r : Room} {m e h : Nat} {unroll : Bool} {cs : List Constraint}, Joins k r m e h cs →
    joinRank k r e h < rank → (l.conj unroll cs).Fills r m ∧
      Exposes (flattenConjList [] [l.conj unroll cs]) (r.withHere e) m
  disj : ∀ {r : Room} {m : Nat} {cs : List Constraint}, r.Within k 1 → m ≤ k.top →
    (∀ c ∈ cs, c.Fills r m) → r.phase * k.period + k.comparing < rank →
      (l.disj cs).Fills r (m + 1)

variable {l : Answers} {unroll : Bool} {e h rank : Nat} {flat ds : List Constraint}

/-! ### Ranks of parts -/

lemma joinRank_local_lt (hr : r.Within k 1) (he : e ≤ r.here) (hh : h ≤ k.top) :
    k.comparing + 1 + e * (k.top + 1) + h < k.period := by
  have hlt := k.mul_le_conjoining (he.trans hr.here_le)
  rw [Scale.period]
  omega

lemma joinRank_lt_of_phase (hr : s.Within k 1) (he : e ≤ s.here) (hh : h ≤ k.top)
    (hp : s.phase < r.phase) (y : Nat) :
    joinRank k s e h < r.phase * k.period + y :=
  k.rank_lt hp (joinRank_local_lt hr he hh)

lemma isFlat_of_mem_flatten (h : c ∈ flattenConjList [] cs) : c.isFlat :=
  forall_mem_flattenConjList (T := fun _ => True) (P := fun c => c.isFlat) (fun _ _ _ => trivial)
    (fun _ hf => hf) (by simp) (fun _ _ => trivial) c h

lemma fills_flatten (h : ∀ c ∈ cs, c.Fills r m) : ∀ c ∈ flattenConjList [] cs, c.Fills r m :=
  fun c hc => (fills_flattenConjList (by simp) h c hc).1

lemma Joins.of_fills (hr : r.Within k 1) (hm : m ≤ k.top) (h : ∀ c ∈ cs, c.Fills r m) :
    Joins k r m r.here m cs :=
  ⟨hr, fun c hc => (h c hc).isPlain, fills_flatten h, hm, Nat.le_refl _, Or.inl (fills_flatten h),
    Nat.le_refl m⟩

lemma Joins.fills_flat (hj : Joins k r m e h cs) :
    ∀ c ∈ flattenConjList [] cs, c.Fills r m ∧ c.isFlat := fun c hc =>
  ⟨hj.fills c hc, isFlat_of_mem_flatten hc⟩

lemma Joins.narrow (hj : Joins k r m e h cs)
    (hx : ∀ c ∈ flattenConjList [] cs, c.Fills (r.withHere e) h) :
    Joins k (r.withHere e) h e h cs :=
  ⟨hj.within.withHere hj.here, hj.plain, hx, hj.exposed.trans hj.height, Nat.le_refl e, Or.inl hx,
    Nat.le_refl h⟩

lemma Exposes.fills (hx : Exposes flat r h) (hc : c ∈ flat) (hd : c.isDisj = false) :
    c.Fills r h := by
  rcases hx with hx | ⟨_, hx⟩
  · exact hx c hc
  · exact hx c hc hd

lemma Joins.not_isUnrollable (hj : Joins k r m e h cs) (hc : c ∈ flattenConjList [] cs) :
    c.isUnrollable = false := by
  have hf := hj.fills c hc
  cases c <;> simp_all [Fills, isUnrollable]

/-! ### Distribution -/

lemma Joins.alternative (hj : Joins k r m e h cs) (hd : isDistributed (flattenConjList [] cs))
    (hds : ds ∈ alternatives (flattenConjList [] cs)) :
    ∃ h', h' + 1 = h ∧ Joins k r (m - 1) e h' ds := by
  rcases hj.exposes with hx | ⟨hcrowd, _⟩
  · have hpos : 0 < h := height_pos_of_isDistributed hx hd
    obtain ⟨h', rfl⟩ : ∃ h', h = h' + 1 := ⟨h - 1, by omega⟩
    obtain ⟨n, rfl⟩ : ∃ n, m = n + 1 := ⟨m - 1, by have := hj.exposed; omega⟩
    have hfill : ∀ c ∈ ds, c.Fills r n := fills_alternatives hj.fills_flat hds
    have hexposed : ∀ c ∈ ds, c.Fills (r.withHere e) h' :=
      fills_alternatives (fun c hc => ⟨hx c hc, isFlat_of_mem_flatten hc⟩) hds
    have hheight := hj.height
    exact ⟨h', rfl, hj.within, fun c hc => (hfill c hc).isPlain, fills_flatten hfill, by omega,
      hj.here, Or.inl (fills_flatten hexposed), Nat.le_of_succ_le_succ hj.exposed⟩
  · rw [hcrowd.alternatives_eq_nil hd] at hds
    simp at hds

lemma Sound.fills_alternative (hs : Sound k rank l) (hj : Joins k r m e h cs)
    (hrank : joinRank k r e h ≤ rank) (hd : isDistributed (flattenConjList [] cs)) :
    ∀ c ∈ (alternatives (flattenConjList [] cs)).map (l.conj unroll), c.Fills r (m - 1) := by
  intro c hc
  obtain ⟨ds, hds, rfl⟩ := List.mem_map.mp hc
  obtain ⟨h', rfl, hj'⟩ := hj.alternative hd hds
  exact (hs.conj hj' (by simp only [joinRank] at hrank ⊢; omega)).1

/-! ### Parts -/

lemma Sound.fills_conjoin (hs : Sound k rank l) (hr : r.Within k 1) (hb : r.below ≠ [])
    (hrank : r.phase * k.period ≤ rank) (hne : ds ≠ [])
    (h : ∀ d ∈ ds, d.Fills r.inPart r.inPart.cap) :
    (conjoin (l.conj unroll) ds).Fills r.inPart r.inPart.cap := by
  match ds with
  | [d] => exact h d (by simp)
  | d :: d' :: ds =>
    have hin : r.inPart.Within k 1 := hr.inPart hb
    have hj : Joins k r.inPart r.inPart.cap r.inPart.here r.inPart.cap (d :: d' :: ds) :=
      .of_fills hin hin.cap_le h
    have hlt := joinRank_lt_of_phase hin (Nat.le_refl _) hin.cap_le (Room.phase_inPart hb) 0
    exact (hs.conj hj (Nat.lt_of_lt_of_le hlt hrank)).1

lemma Sound.fills_group (hs : Sound k rank l) (hr : r.Within k 1)
    (hrank : r.phase * k.period ≤ rank) (hflat : ∀ c ∈ flat, c.Fills r m)
    (hds : ds ∈ (Structure.ofList flat).groups (l.conj unroll)) (hd : d ∈ ds) :
    r.below ≠ [] ∧ d.Fills r.inPart r.inPart.cap := by
  have hpart : ∀ {x}, (∃ c ∈ flat, IsPart c x) → r.below ≠ [] ∧ x.Fills r.inPart r.inPart.cap :=
    fun ⟨c, hc, hp⟩ => hp.fills_iff.mp (hflat c hc)
  rcases mem_groups hds hd with hp | he
  · exact hpart hp
  · -- the statement about all items is itself an answer
    simp only [mergedElements] at he
    split_ifs at he with hnil
    · simp at he
    · rw [List.mem_singleton] at he
      have hne : (Structure.ofList flat).elements ≠ [] := by simpa using hnil
      have hall : (Structure.ofList flat).All (· ∈ flat) :=
        (Structure.all_ofList flat (· ∈ flat)).mpr fun c hc => hc
      have hfill : ∀ x ∈ (Structure.ofList flat).elements,
          r.below ≠ [] ∧ x.Fills r.inPart r.inPart.cap :=
        fun x hx => hpart ⟨_, hall.2.1 x hx, .elements x⟩
      obtain ⟨x, hx⟩ := List.exists_mem_of_ne_nil _ hne
      have hb := (hfill x hx).1
      exact ⟨hb, he ▸ hs.fills_conjoin hr hb hrank hne fun x hx => (hfill x hx).2⟩

lemma Sound.groupsFill (hs : Sound k rank l) (hr : r.Within k 1)
    (hrank : r.phase * k.period ≤ rank) (hflat : ∀ c ∈ flat, c.Fills r m) :
    GroupsFill (l.conj unroll) flat r := by
  intro ds hds hne
  have hfill := fun d hd => hs.fills_group (d := d) hr hrank hflat hds hd
  obtain ⟨d, hd⟩ := List.exists_mem_of_ne_nil _ hne
  have hb := (hfill d hd).1
  exact ⟨hb, hs.fills_conjoin hr hb hrank hne fun x hx => (hfill x hx).2⟩

/-! ### Negations -/

lemma filter_isDisj_positives (ds : List Constraint) :
    (positives ds).filter isDisj = ds.filter isDisj := by
  rw [positives, List.filter_filter]
  exact List.filter_congr fun c _ => by cases c <;> rfl

lemma Sound.joins_positives (hs : Sound k rank l) (hj : Joins k r m e h cs)
    (hrank : joinRank k r e h ≤ rank) (hw : l.Weighs unroll cs ds d) :
    Joins k r m 0 0 (positives ds) := by
  obtain ⟨common, hg⟩ := hw.gathers
  have hphase : r.phase * k.period ≤ rank := (Nat.le_add_right _ _).trans hrank
  have hgroups : GroupsFill (l.conj unroll) (flattenConjList [] cs) r :=
    hs.groupsFill hj.within hphase hj.fills
  have hstem : ∀ c ∈ positives ds, Stems (l.conj unroll) (flattenConjList [] cs) c := fun c hc =>
    (mem_gather hg (List.mem_of_mem_filter hc)).imp id (Or.imp id Or.inl)
  have hflat : ∀ c ∈ positives ds, c.isFlat := fun c hc =>
    (hstem c hc).isFlat fun c hc => isFlat_of_mem_flatten hc
  have hfill : ∀ c ∈ positives ds, c.Fills r m := fun c hc =>
    (hstem c hc).fills hgroups fun hc => hj.fills c hc
  have hatom : ∀ c ∈ positives ds, c.isDisj = false → c.Fills (r.withHere 0) 0 := by
    intro c hc hd
    have hneg : c.isNeg = false := by simpa using (List.mem_filter.mp hc).2
    exact (hfill c hc).atom (isConj_eq_false_of_isFlat (hflat c hc)) hd hneg
  refine ⟨hj.within, fun c hc => (hfill c hc).isPlain, fills_flatten hfill, hj.height,
    Nat.zero_le _, ?_, Nat.zero_le _⟩
  have hdisj : (positives ds).filter isDisj = (flattenConjList [] cs).filter isDisj := by
    rw [filter_isDisj_positives, filter_isDisj_gather hg]
  rcases crowded_of_not_isDistributed hw.whole with hnone | hcrowd
  · -- no disjunctions: everything is exposed
    have hall : ∀ c ∈ positives ds, c.Fills (r.withHere 0) 0 := by
      intro c hc
      refine hatom c hc (Bool.eq_false_iff.mpr fun hd => ?_)
      have hmem : c ∈ (positives ds).filter isDisj := List.mem_filter.mpr ⟨hc, hd⟩
      rw [hdisj, hnone] at hmem
      simp at hmem
    exact Or.inl (fills_flatten hall)
  · -- too many: they stay as they are
    have hapart := apart_flatten fun c hc => (hj.fills c hc).isPlain.isWellFormed
    rw [← hdisj] at hapart
    have hkeep : (flattenConjList [] (positives ds)).filter isDisj = (positives ds).filter isDisj :=
      @filter_flattenConjList [] _ hflat hapart
    refine Or.inr ⟨?_, ?_⟩
    · have hcount : branchCount (flattenConjList [] (positives ds)) =
          branchCount (flattenConjList [] cs) :=
        branchCount_eq_of_perm (List.Perm.of_eq (hkeep.trans hdisj))
      simpa only [Crowded, hcount] using hcrowd
    · refine forall_mem_flattenConjList
        (T := fun c => c.isFlat ∧ (c.isDisj = false → c.Fills (r.withHere 0) 0)) ?_
        (fun h _ => h.2) (by simp) fun c hc => ⟨hflat c hc, hatom c hc⟩
      exact fun h => absurd h.1 Bool.false_ne_true

lemma Joins.fills_negated (hj : Joins k r m e h cs) (hw : l.Weighs unroll cs ds d) :
    0 < e ∧ d.Fills (r.withHere (e - 1)) (r.withHere (e - 1)).cap := by
  obtain ⟨common, hg⟩ := hw.gathers
  have hmem : .neg d ∈ flattenConjList [] cs := by
    rcases mem_gather hg hw.negated with hf | ⟨group, _, _, hp⟩ | hk
    · exact hf
    · cases hp
    · simp [kind?] at hk
  exact fills_neg.mp (hj.exposes.fills hmem rfl)

lemma Joins.joinRank_positives (hj : Joins k r m e h cs) (hw : l.Weighs unroll cs ds d) :
    joinRank k r 0 0 < joinRank k r e h := by
  have hmul : 1 * (k.top + 1) ≤ e * (k.top + 1) :=
    Nat.mul_le_mul_right _ (hj.fills_negated hw).1
  simp only [joinRank]
  omega

/-! ### What is asked ranks lower -/

lemma ranked_conj (hr : s.Within k 1) (hm : m ≤ k.top) (h : ∀ d ∈ ds, d.Fills s m)
    (hp : s.phase < r.phase) (y : Nat) :
    ∃ n < r.phase * k.period + y, Ranked k (.conj unroll ds) n :=
  ⟨_, joinRank_lt_of_phase hr (Nat.le_refl _) hm hp y, .conj (.of_fills hr hm h)⟩

lemma ranked_entails {assumed : Assumptions} {a b : Constraint} (hr : s.Within k 1)
    (ha : a.Fills s s.cap) (hb : b.Fills s s.cap) (hp : s.phase < r.phase) (y : Nat) :
    ∃ n < r.phase * k.period + y, Ranked k (.entails assumed a b) n := by
  refine ⟨_, k.rank_lt hp ?_, .entails hr hr.cap_le hr.cap_le ha hb⟩
  have hcap := hr.cap_le
  have hbits := conjBit_le a
  have hbits' := conjBit_le b
  simp only [Scale.period, Scale.conjoining, Scale.comparing]
  omega

lemma ranked_normal (hr : s.Within k 0) (hw : HasWeight s s.cap c w) (hp : s.phase < r.phase)
    (y : Nat) : ∃ n < r.phase * k.period + y, Ranked k (.normal c) n := by
  refine ⟨_, k.rank_lt hp ?_, .normal hr (Nat.le_refl _) hw⟩
  have hcap := hr.weaken.cap_le
  have hle := hw.le
  simp only [Scale.period]
  omega

lemma fills_number_question {b : Comparison} {x : Number} (hc : c.Fills r m) :
    ∀ d ∈ [c, .kind .number, .bound b x], d.Fills r m := by
  simp [hc, Fills]

lemma Sound.asks_conj {q : Question} (hs : Sound k rank l) (hj : Joins k r m e h cs)
    (hrank : joinRank k r e h ≤ rank) (hq : l.Asks (.conj unroll cs) q) :
    ∃ n < joinRank k r e h, Ranked k q n := by
  have hphase : r.phase * k.period ≤ rank := (Nat.le_add_right _ _).trans hrank
  cases hq with
  | unfold _ _ hc hu => simp [hj.not_isUnrollable hc] at hu
  | unfolded _ _ hu =>
    obtain ⟨c, hc, hu⟩ := List.any_eq_true.mp hu
    simp [hj.not_isUnrollable hc] at hu
  | alternative _ hd hds =>
    obtain ⟨h', rfl, hj'⟩ := hj.alternative hd hds
    exact ⟨_, by simp only [joinRank]; omega, .conj hj'⟩
  | distributed _ hd =>
    refine ⟨_, ?_, .disj hj.within ((Nat.sub_le m 1).trans hj.height)
      (hs.fills_alternative hj hrank hd)⟩
    simp only [joinRank]
    omega
  | group _ _ hds h2 =>
    have hfill := fun d hd => hs.fills_group (d := d) hj.within hphase hj.fills hds hd
    obtain ⟨d, hd⟩ := List.exists_mem_of_length_pos (Nat.lt_of_lt_of_le Nat.zero_lt_two h2)
    have hb := (hfill d hd).1
    have hin := hj.within.inPart hb
    exact ranked_conj hin hin.cap_le (fun d hd => (hfill d hd).2) (Room.phase_inPart hb) _
  | reach _ _ hne _ =>
    have hgroups : GroupsFill (l.conj unroll) (flattenConjList [] cs) r :=
      hs.groupsFill hj.within hphase hj.fills
    obtain ⟨hb, hfill⟩ := hgroups _ (by simp [Structure.groups]) hne
    have hin := hj.within.inPart hb
    exact ranked_conj hin hin.cap_le (fills_number_question hfill) (Room.phase_inPart hb) _
  | context hw => exact ⟨_, hj.joinRank_positives hw, .conj (hs.joins_positives hj hrank hw)⟩
  | @entailed _ _ ds d hw =>
    obtain ⟨he, hd⟩ := hj.fills_negated hw
    have hpos := hs.joins_positives hj hrank hw
    have hanswer := (@Sound.conj _ _ _ hs _ _ _ _ false _ hpos
      (Nat.lt_of_lt_of_le (hj.joinRank_positives hw) hrank)).1
    have hle : e - 1 ≤ r.here := (Nat.sub_le e 1).trans hj.here
    have hcap := (hj.within.withHere hle).cap_le
    refine ⟨_, ?_, .entails hj.within hj.height hcap hanswer
      (hd.mono (Room.withHere_le hle) (Nat.le_refl _))⟩
    have hheight := hj.height
    have hbit := conjBit_le (l.conj false (positives ds))
    have hbit' := conjBit_le d
    simp only [joinRank, Scale.comparing]
    omega
  | @excluded _ _ ds d hw =>
    obtain ⟨he, hd⟩ := hj.fills_negated hw
    have hpos := hs.joins_positives hj hrank hw
    obtain ⟨hanswer, hexposed⟩ := @Sound.conj _ _ _ hs _ _ _ _ false _ hpos
      (Nat.lt_of_lt_of_le (hj.joinRank_positives hw) hrank)
    have hle : e - 1 ≤ r.here := (Nat.sub_le e 1).trans hj.here
    have hcap := (hj.within.withHere hle).cap_le
    have htop : max m (r.withHere (e - 1)).cap ≤ k.top := Nat.max_le.mpr ⟨hj.height, hcap⟩
    have hd' := hd.of_le (Nat.le_max_right m _)
    have hfill : ∀ c ∈ [l.conj false (positives ds), d], c.Fills r
        (max m (r.withHere (e - 1)).cap) := by
      rw [List.forall_mem_cons, List.forall_mem_singleton]
      exact ⟨hanswer.of_le (Nat.le_max_left m _),
        hd'.mono (Room.withHere_le hle) (Nat.le_refl _)⟩
    refine ⟨_, ?_, .conj ⟨hj.within, fun c hc => (hfill c hc).isPlain, fills_flatten hfill, htop,
      hle, hexposed.cons hd' (Room.withHere_mono (Nat.zero_le _)) (Nat.le_max_left m _),
      Nat.le_refl _⟩⟩
    have hmul : (e - 1 + 1) * (k.top + 1) = (e - 1) * (k.top + 1) + (k.top + 1) :=
      Nat.succ_mul _ _
    rw [Nat.sub_add_cancel he] at hmul
    simp only [joinRank]
    omega

lemma Ranked.part (hr : r.Within k 0) (hm : m ≤ r.cap) (hw : HasWeight r m c w)
    (hd : d ∈ c.children) :
    ∃ n < r.phase * k.period + (k.conjoining + w), Ranked k (.normal d) n := by
  have hinner : r.below ≠ [] ∧ d.Fills r.inPart r.inPart.cap →
      ∃ n < r.phase * k.period + (k.conjoining + w), Ranked k (.normal d) n := fun ⟨hb, hf⟩ =>
    ranked_normal (hr.inPart hb) (.plain hf) (Room.phase_inPart hb) _
  cases c with
  | conj cs =>
    obtain ⟨n, hn, hf, hlt⟩ := hw.members hd
    exact ⟨_, by omega, .normal hr (hn.trans hm) (.plain hf)⟩
  | disj cs =>
    obtain ⟨hpos, hf⟩ := fills_disj.mp (hw.fills rfl)
    refine ⟨_, ?_, .normal hr ((Nat.sub_le m 1).trans hm) (.plain (hf d hd))⟩
    have hbit := conjBit_le d
    cases hw with
    | plain => omega
  | neg c =>
    obtain ⟨hpos, hf⟩ := fills_neg.mp (hw.fills rfl)
    obtain rfl : d = c := by simpa [children] using hd
    exact ranked_normal (hr.weaken.inNeg hpos) (.plain hf) (Room.phase_inNeg hpos) _
  | field name c =>
    obtain rfl : d = c := by simpa [children] using hd
    exact hinner ((IsPart.field name d).fills_iff.mp (hw.fills rfl))
  | elements c =>
    obtain rfl : d = c := by simpa [children] using hd
    exact hinner ((IsPart.elements d).fills_iff.mp (hw.fills rfl))
  | length c =>
    obtain rfl : d = c := by simpa [children] using hd
    exact hinner ((IsPart.length d).fills_iff.mp (hw.fills rfl))
  | elementAt i c =>
    obtain rfl : d = c := by simpa [children] using hd
    exact hinner ((IsPart.elementAt i d).fills_iff.mp (hw.fills rfl))
  | fix body =>
    have hf := hw.fills rfl
    simp only [Fills] at hf
  | _ => simp [children] at hd

lemma Sound.joins_members (hs : Sound k rank l) (hr : r.Within k 0) (hm : m ≤ r.cap)
    (hw : HasWeight r m (.conj cs) w)
    (hrank : r.phase * k.period + (k.conjoining + w) ≤ rank) :
    Joins k r.older (m + r.spare) r.older.here (m + r.spare) (cs.map l.normal) := by
  have hcap : m + r.spare ≤ k.top := by
    have htop := hr.older.cap_le
    rw [Room.cap_older] at htop
    omega
  refine .of_fills hr.older hcap fun c hc => ?_
  obtain ⟨d, hd, rfl⟩ := List.mem_map.mp hc
  obtain ⟨n, hn, hf, hlt⟩ := hw.members hd
  exact (hs.normal hr (hn.trans hm) (.plain hf) (by omega)).of_le (by omega)

lemma joinRank_older_lt (hr : r.Within k 0) (hh : h ≤ k.top) :
    joinRank k r.older r.older.here h < r.phase * k.period + (k.conjoining + w) := by
  have hlt := k.mul_le_conjoining hr.weaken.here_le
  have hhere : r.older.here = r.here := rfl
  simp only [joinRank, Room.phase_older, hhere]
  omega

lemma Sound.fills_branches (hs : Sound k rank l) (hr : r.Within k 0) (hm : m ≤ r.cap)
    (hw : HasWeight r m (.disj cs) w)
    (hrank : r.phase * k.period + (k.conjoining + w) ≤ rank) :
    0 < m ∧ ∀ c ∈ cs.map l.normal, c.Fills r.older (m - 1 + r.spare) := by
  obtain ⟨hpos, hf⟩ := fills_disj.mp (hw.fills rfl)
  refine ⟨hpos, fun c hc => ?_⟩
  obtain ⟨d, hd, rfl⟩ := List.mem_map.mp hc
  have hbit := conjBit_le d
  refine hs.normal hr ((Nat.sub_le m 1).trans hm) (.plain (hf d hd)) ?_
  cases hw with
  | plain => omega

lemma Sound.fills_normal_part (hs : Sound k rank l) (hr : r.Within k 0) (hp : IsPart c d)
    (hf : c.Fills r m) (hrank : r.phase * k.period ≤ rank) :
    r.below ≠ [] ∧ (l.normal d).Fills r.inPart.older r.inPart.older.cap := by
  obtain ⟨hb, hd⟩ := hp.fills_iff.mp hf
  refine ⟨hb, ?_⟩
  rw [Room.cap_older]
  refine hs.normal (hr.inPart hb) (Nat.le_refl _) (.plain hd) ?_
  have hcap := (hr.inPart hb).weaken.cap_le
  have hbit := conjBit_le d
  have hlt := @Scale.rank_lt k _ _ (k.conjoining + (2 * r.inPart.cap + d.conjBit)) 0
    (Room.phase_inPart hb) (by simp only [Scale.period]; omega)
  omega

lemma Sound.asks_normal {q : Question} (hs : Sound k rank l) (hr : r.Within k 0) (hm : m ≤ r.cap)
    (hw : HasWeight r m c w) (hrank : r.phase * k.period + (k.conjoining + w) ≤ rank)
    (hq : l.Asks (.normal c) q) :
    ∃ n < r.phase * k.period + (k.conjoining + w), Ranked k q n := by
  cases hq with
  | part hd => exact Ranked.part hr hm hw hd
  | members cs =>
    have hj := hs.joins_members hr hm hw hrank
    exact ⟨_, joinRank_older_lt hr hj.height, .conj hj⟩
  | branches cs =>
    obtain ⟨hpos, hf⟩ := hs.fills_branches hr hm hw hrank
    have htop := hr.older.cap_le
    rw [Room.cap_older] at htop
    refine ⟨_, ?_, .disj hr.older (by omega) hf⟩
    simp only [Room.phase_older, Scale.conjoining]
    omega
  | count c =>
    obtain ⟨hb, hf⟩ := hs.fills_normal_part hr (.length c) (hw.fills rfl)
      ((Nat.le_add_right _ _).trans hrank)
    have hin := (hr.inPart hb).older
    exact ranked_conj hin hin.cap_le (fills_number_question hf) (Room.phase_inPart hb) _

section Comparison

variable {assumed : Assumptions} {a b : Constraint} {n : Nat} {i : Nat}

lemma isPart_of_mem_statementsAt (h : d ∈ statementsAt i cs) : ∃ c ∈ cs, IsPart c d := by
  rcases mem_statementsAt.mp h with hc | hc
  · exact ⟨_, hc, .elementAt i d⟩
  · exact ⟨_, hc, .elements d⟩

lemma isPart_of_mem_lengthStatements (h : d ∈ lengthStatements cs) :
    (∃ c ∈ cs, IsPart c d) ∨ d.kind? = some .number := by
  rcases mem_lengthStatements h with rfl | rfl | hc | ⟨_, _, _, rfl⟩
  · exact Or.inr rfl
  · exact Or.inr rfl
  · exact Or.inl ⟨_, hc, .length d⟩
  · exact Or.inr rfl

lemma Sound.fills_statements (hs : Sound k rank l) (hr : r.Within k 1) (hb : r.below ≠ [])
    (hrank : r.phase * k.period ≤ rank) (hds : ∀ d ∈ ds, d.Fills r.inPart r.inPart.cap) :
    (l.conj unroll ds).Fills r.inPart r.inPart.cap := by
  have hin := hr.inPart hb
  have hlt := joinRank_lt_of_phase hin (Nat.le_refl _) hin.cap_le (Room.phase_inPart hb) 0
  exact (hs.conj (.of_fills hin hin.cap_le hds) (Nat.lt_of_lt_of_le hlt hrank)).1

lemma Sound.compares {q : Question} (hs : Sound k rank l) (hr : r.Within k 1) (hm : m ≤ k.top)
    (hn : n ≤ k.top) (ha : a.Fills r m) (hb : b.Fills r n) (hrank : r.phase * k.period ≤ rank)
    (hq : l.Compares assumed a b q) :
    ∃ p < r.phase * k.period + (2 * m + a.conjBit + (2 * n + b.conjBit)), Ranked k q p := by
  -- both sides are about the same part
  have hpart : ∀ {a' b' x y}, IsPart a' x → a'.Fills r m → IsPart b' y → b'.Fills r n →
      ∃ p < r.phase * k.period + (2 * m + a.conjBit + (2 * n + b.conjBit)),
        Ranked k (.entails assumed x y) p := by
    intro a' b' x y hx ha' hy hb'
    have hx' := hx.fills_iff.mp ha'
    have hy' := hy.fills_iff.mp hb'
    exact ranked_entails (hr.inPart hx'.1) hx'.2 hy'.2 (Room.phase_inPart hx'.1) _
  -- a conjunction against one statement about a part
  have hstated : ∀ {xs ds : List Constraint} {b' y},
      (Constraint.conj xs).Fills r m → IsPart b' y → b'.Fills r n →
      (∀ d ∈ ds, (∃ c ∈ xs, IsPart c d) ∨ d.kind? = some .number) →
      (∃ p < r.phase * k.period + (2 * m + a.conjBit + (2 * n + b.conjBit)),
        Ranked k (.conj false ds) p) ∧
      ∃ p < r.phase * k.period + (2 * m + a.conjBit + (2 * n + b.conjBit)),
        Ranked k (.entails assumed (l.conj false ds) y) p := by
    intro xs ds b' y hxs hy hb' hds
    obtain ⟨hne, hy'⟩ := hy.fills_iff.mp hb'
    have hin := hr.inPart hne
    have hfill : ∀ d ∈ ds, d.Fills r.inPart r.inPart.cap := by
      intro d hd
      rcases hds d hd with ⟨c, hc, hp⟩ | hk
      · exact (hp.fills_iff.mp (hxs.members c hc)).2
      · exact fills_of_kind?_number hk
    exact ⟨ranked_conj hin hin.cap_le hfill (Room.phase_inPart hne) _,
      ranked_entails hin (hs.fills_statements hr hne hrank hfill) hy' (Room.phase_inPart hne) _⟩
  cases hq with
  | @fromBranch xs x _ hx =>
    obtain ⟨hpos, hf⟩ := fills_disj.mp ha
    have hbit := conjBit_le x
    exact ⟨_, by omega, .entails hr (by omega) hn (hf x hx) hb⟩
  | @toMember ys _ y hy =>
    obtain ⟨n', hn', hf, hlt⟩ := member_weight hb hy
    refine ⟨_, ?_, .entails hr hm (hn'.trans hn) ha hf⟩
    have hbit : (Constraint.conj ys).conjBit = 1 := rfl
    omega
  | @toBranch ys _ y hy =>
    obtain ⟨hpos, hf⟩ := fills_disj.mp hb
    have hbit := conjBit_le y
    exact ⟨_, by omega, .entails hr hm (by omega) ha (hf y hy)⟩
  | @fromMember xs x _ hx =>
    obtain ⟨m', hm', hf, hlt⟩ := member_weight ha hx
    refine ⟨_, ?_, .entails hr (hm'.trans hm) hn hf hb⟩
    have hbit : (Constraint.conj xs).conjBit = 1 := rfl
    omega
  | @item xs i c d hc => exact hpart (.elementAt i c) (ha.members _ hc) (.elements d) hb
  | statements _ =>
    exact (hstated ha (.elementAt _ _) hb fun d hd =>
      Or.inl (isPart_of_mem_statementsAt (List.mem_of_mem_filter hd))).1
  | stated _ =>
    exact (hstated ha (.elementAt _ _) hb fun d hd =>
      Or.inl (isPart_of_mem_statementsAt (List.mem_of_mem_filter hd))).2
  | lengths => exact (hstated ha (.length _) hb fun d hd => isPart_of_mem_lengthStatements hd).1
  | length => exact (hstated ha (.length _) hb fun d hd => isPart_of_mem_lengthStatements hd).2
  | contrary =>
    obtain ⟨hpos, hx⟩ := fills_neg.mp ha
    obtain ⟨_, hy⟩ := fills_neg.mp hb
    exact ranked_entails (hr.inNeg hpos).weaken hy hx (Room.phase_inNeg hpos) _
  | contradiction hneg hdisj hconj =>
    obtain ⟨hpos, hy⟩ := fills_neg.mp hb
    -- without negations, the left side fits where the negated one does
    have hnot : a.isConj = false := Bool.eq_false_iff.mpr fun h => (isConj_iff.mp h).elim hconj
    have hx : a.Fills r.inNeg r.inNeg.cap := ha.atom hnot hdisj hneg
    refine ranked_normal (hr.inNeg hpos) (.joint ?_) (Room.phase_inNeg hpos) _
    rw [List.forall_mem_cons, List.forall_mem_singleton]
    exact ⟨hx, hy⟩
  | inField => exact hpart (.field _ _) ha (.field _ _) hb
  | inElements => exact hpart (.elements _) ha (.elements _) hb
  | inLength => exact hpart (.length _) ha (.length _) hb
  | inElementAt => exact hpart (.elementAt _ _) ha (.elementAt _ _) hb
  | unfoldLeft => simp only [Fills] at ha
  | unfoldRight => simp only [Fills] at hb
  | assume hu =>
    rcases hu.recursive with ⟨body, rfl⟩ | ⟨body, rfl⟩
    · simp only [Fills] at ha
    · simp only [Fills] at hb

end Comparison

theorem Sound.asks {q q' : Question} {n : Nat} (hs : Sound k rank l) (hq : Ranked k q n)
    (hrank : n ≤ rank) (ha : l.Asks q q') : ∃ n' < n, Ranked k q' n' := by
  cases hq with
  | normal hr hm hw => exact hs.asks_normal hr hm hw hrank ha
  | conj hj => exact hs.asks_conj hj hrank ha
  | disj hr hm hf =>
    cases ha with
    | covers hc hd =>
      refine ⟨_, ?_, .entails hr hm hm (fills_compared hf _ hc) (fills_compared hf _ hd)⟩
      rename_i c d
      have hbit := conjBit_le c
      have hbit' := conjBit_le d
      simp only [Scale.comparing]
      omega
  | entails hr hm hn ha' hb' =>
    cases ha with
    | compare _ ha =>
      exact hs.compares hr hm hn ha' hb' ((Nat.le_add_right _ _).trans hrank) ha

/-! ### The answers of a step keep to the room -/

lemma Exposes.mono {n : Nat} (hx : Exposes flat r h) (hn : h ≤ n) : Exposes flat r n :=
  hx.imp (fun hall c hc => (hall c hc).of_le hn)
    (And.imp_right fun hall c hc hd => (hall c hc hd).of_le hn)

lemma mem_flatten_finishConj (hflat : ∀ c ∈ cs, c.isFlat)
    (hd : d ∈ flattenConjList [] [finishConj cs]) : d ∈ cs := by
  -- an ordered conjunction has members of the list, and these are not conjunctions themselves
  have hmem : ∀ c ∈ dedup (sort cs), c ∈ cs ∧ c.isFlat := fun c hc =>
    ⟨mem_of_mem_dedup_sort hc, hflat c (mem_of_mem_dedup_sort hc)⟩
  have hflatten : ∀ es : List Constraint, (∀ c ∈ es, c ∈ cs ∧ c.isFlat) →
      ∀ d ∈ flattenConjList [] es, d ∈ cs := fun es hes =>
    forall_mem_flattenConjList (T := fun c => c ∈ cs ∧ c.isFlat)
      (fun h => absurd h.2 Bool.false_ne_true) (fun h _ => h.1) (by simp) hes
  simp only [finishConj] at hd
  split at hd
  · simp [flattenConjList, flattenConj] at hd
  · next c he =>
    rw [he] at hmem
    exact hflatten _ hmem d hd
  · exact hflatten _ hmem d hd

lemma Joins.step_cases {P : Constraint → Prop} (hj : Joins k r m e h cs) (hnever : P .never)
    (hshort : P (finishConj (flattenConjList [] cs)))
    (hdist : isDistributed (flattenConjList [] cs) →
      P (l.disj ((alternatives (flattenConjList [] cs)).map (l.conj unroll))))
    (hwhole : P (conjoinFlat (l.conj unroll) (l.conj false) (l.entails [])
      (flattenConjList [] cs))) :
    P (l.step.conj unroll cs) := by
  have hunroll : (flattenConjList [] cs).any isUnrollable = false :=
    List.any_eq_false.mpr fun c hc => by simp [hj.not_isUnrollable hc]
  simp only [Answers.step, hunroll, Bool.and_false, Bool.false_eq_true, if_false, distribute?_eq]
  split_ifs with _ _ hd
  · exact hnever
  · exact hshort
  · exact hdist hd
  · exact hwhole

lemma Sound.fills_conj_step (hs : Sound k rank l) (hj : Joins k r m e h cs)
    (hrank : joinRank k r e h ≤ rank) : (l.step.conj unroll cs).Fills r m := by
  have hphase : r.phase * k.period ≤ rank := (Nat.le_add_right _ _).trans hrank
  refine hj.step_cases (P := (·.Fills r m)) (by simp [Fills]) ?_ (fun hd => ?_) ?_
  · exact fills_finishConj
      (fun c hc => isConj_eq_false_of_isFlat (isFlat_of_mem_flatten hc)) hj.fills
  · have hpos : 0 < m := height_pos_of_isDistributed hj.fills hd
    rw [← Nat.sub_add_cancel hpos]
    exact hs.disj hj.within ((Nat.sub_le m 1).trans hj.height)
      (hs.fills_alternative hj hrank hd) (by simp only [joinRank] at hrank; omega)
  · exact fills_conjoinFlat hj.fills_flat (hs.groupsFill hj.within hphase hj.fills)

lemma exposes_finishConj {es : List Constraint} (hflat : ∀ c ∈ es, c.isFlat)
    (hdisj : es.filter isDisj = flat.filter isDisj) (hcrowd : Crowded flat)
    (hapart : (flat.filter isDisj).Pairwise Apart)
    (hfill : ∀ c ∈ es, c.isDisj = false → c.Fills r h) :
    Exposes (flattenConjList [] [finishConj es]) r h := by
  refine Or.inr ⟨?_, fun c hc => hfill c (mem_flatten_finishConj hflat hc)⟩
  have hcount : branchCount es = branchCount flat :=
    branchCount_eq_of_perm (List.Perm.of_eq hdisj)
  simpa only [Crowded, branchCount_flatten_finishConj hflat (hdisj ▸ hapart), hcount] using hcrowd

lemma Sound.exposes_crowded (hs : Sound k rank l) (hj : Joins k r m e h cs)
    (hrank : joinRank k r e h ≤ rank) (hcrowd : Crowded (flattenConjList [] cs)) :
    Exposes (flattenConjList [] [l.step.conj unroll cs]) (r.withHere e) m := by
  have hphase : r.phase * k.period ≤ rank := (Nat.le_add_right _ _).trans hrank
  have hexposed : ∀ c ∈ flattenConjList [] cs, c.isDisj = false → c.Fills (r.withHere e) m :=
    fun c hc hd => (hj.exposes.fills hc hd).of_le hj.exposed
  have hapart := apart_flatten fun c hc => (hj.fills c hc).isPlain.isWellFormed
  refine hj.step_cases (P := fun c => Exposes (flattenConjList [] [c]) (r.withHere e) m)
    (exposes_of_fills (by simp [Fills])) ?_ (fun hd => ?_) ?_
  · exact exposes_finishConj (fun c hc => isFlat_of_mem_flatten hc) rfl hcrowd hapart hexposed
  · -- distributed although crowded: there are no alternatives
    rw [hcrowd.alternatives_eq_nil hd]
    have hpos : 0 < m := height_pos_of_isDistributed hj.fills hd
    have hmul := Nat.mul_le_mul_right k.period (Room.phase_withHere hj.here)
    have hnil : ∀ c ∈ ([] : List Constraint), c.Fills (r.withHere e) 0 := by simp
    exact exposes_of_fills ((hs.disj (hj.within.withHere hj.here) (Nat.zero_le _) hnil
      (by simp only [joinRank] at hrank; omega)).of_le hpos)
  · have hgroups : GroupsFill (l.conj unroll) (flattenConjList [] cs) r :=
      hs.groupsFill hj.within hphase hj.fills
    rcases conjoinFlat_cases (l.conj unroll) (l.conj false) (l.entails [])
      (flattenConjList [] cs) with he | ⟨es, he, hstem, hdisj⟩
    · exact he ▸ exposes_of_fills (by simp [Fills])
    · have hes : ∀ c ∈ es, c.isFlat := fun c hc =>
        (hstem c hc).isFlat fun c hc => isFlat_of_mem_flatten hc
      have hfill : ∀ c ∈ es, c.isDisj = false → c.Fills (r.withHere e) m := fun c hc hd =>
        (hstem c hc).fills (r := r.withHere e) hgroups fun hc => hexposed c hc hd
      rw [he]
      rcases hdisj with hnone | hdisj
      · refine exposes_of_fills (fills_finishConj
          (fun c hc => isConj_eq_false_of_isFlat (hes c hc)) fun c hc => hfill c hc ?_)
        exact Bool.eq_false_iff.mpr fun hd => List.filter_eq_nil_iff.mp hnone c hc hd
      · exact exposes_finishConj hes hdisj hcrowd hapart hfill

lemma Sound.exposes_conj_step (hs : Sound k rank l) (hj : Joins k r m e h cs)
    (hrank : joinRank k r e h ≤ rank) :
    Exposes (flattenConjList [] [l.step.conj unroll cs]) (r.withHere e) m := by
  rcases hj.exposes with hx | ⟨hcrowd, _⟩
  · have hmul := Nat.mul_le_mul_right k.period (Room.phase_withHere hj.here)
    have hfill : (l.step.conj unroll cs).Fills (r.withHere e) h :=
      hs.fills_conj_step (hj.narrow hx) (by simp only [joinRank] at hrank ⊢; omega)
    exact (exposes_of_fills hfill).mono hj.exposed
  · exact hs.exposes_crowded hj hrank hcrowd

lemma fills_negate (hpos : 0 < r.here) (hm : r.spare ≤ m)
    (hc : c.Fills r.inNeg.older r.inNeg.older.cap) : (negate c).Fills r.older m := by
  have hneg : (neg c).Fills r.older m := fills_neg.mpr ⟨hpos, hc⟩
  cases c with
  | neg d =>
    obtain ⟨hpos', hd⟩ := fills_neg.mp hc
    have hle : r.inNeg.older.inNeg.Le r.older :=
      ⟨Nat.le_refl _, Nat.le_refl _, by simp only [Room.inNeg, Room.older]; omega, .refl _⟩
    refine hd.mono hle (Nat.le_trans (Nat.le_of_eq ?_) hm)
    have hindex : r.here - 1 - 1 + (r.age + 1) + 2 = r.here + r.age + 1 := by
      simp only [Room.inNeg, Room.older] at hpos'
      omega
    simp only [Room.cap, Room.spare, Room.inNeg, Room.older, hindex]
  | any | never => simp [negate, Fills]
  | _ => exact hneg

lemma Sound.fills_normal_step (hs : Sound k rank l) (hr : r.Within k 0) (hm : m ≤ r.cap)
    (hw : HasWeight r m c w) (hrank : r.phase * k.period + (k.conjoining + w) ≤ rank) :
    (l.step.normal c).Fills r.older (m + r.spare) := by
  have hphase : r.phase * k.period ≤ rank := (Nat.le_add_right _ _).trans hrank
  have hpart : ∀ {c d c'}, IsPart c d → c.Fills r m → IsPart c' (l.normal d) →
      c'.Fills r.older (m + r.spare) := by
    intro c d c' hp hf hp'
    obtain ⟨hb, hd⟩ := hs.fills_normal_part hr hp hf hphase
    exact hp'.fills_iff.mpr ⟨hb, hd⟩
  have hfinish : ∀ {wrap : Constraint → Constraint} {x}, (wrap x).Fills r.older (m + r.spare) →
      (finishPart wrap x).Fills r.older (m + r.spare) := by
    intro wrap x hx
    simp only [finishPart]
    split_ifs
    · simp [Fills]
    · exact hx
  cases c with
  | conj cs =>
    have hj := hs.joins_members hr hm hw hrank
    exact (hs.conj hj (Nat.lt_of_lt_of_le (joinRank_older_lt hr hj.height) hrank)).1
  | disj cs =>
    obtain ⟨hpos, hf⟩ := hs.fills_branches hr hm hw hrank
    have htop := hr.older.cap_le
    rw [Room.cap_older] at htop
    have hout := hs.disj hr.older (by omega) hf
      (by simp only [Room.phase_older, Scale.conjoining] at hrank ⊢; omega)
    exact hout.of_le (by omega)
  | neg c =>
    obtain ⟨hpos, hf⟩ := fills_neg.mp (hw.fills rfl)
    have hin := hr.weaken.inNeg hpos
    refine fills_negate hpos (Nat.le_add_left _ _) ?_
    rw [Room.cap_older]
    refine hs.normal hin (Nat.le_refl _) (.plain hf) ?_
    have hcap := hin.weaken.cap_le
    have hbit := conjBit_le c
    have hlt := @Scale.rank_lt k _ _ (k.conjoining + (2 * r.inNeg.cap + c.conjBit)) 0
      (Room.phase_inNeg hpos) (by simp only [Scale.period]; omega)
    omega
  | field name c => exact hfinish (hpart (.field name c) (hw.fills rfl) (.field name _))
  | elementAt i c => exact hfinish (hpart (.elementAt i c) (hw.fills rfl) (.elementAt i _))
  | elements c => exact hpart (.elements c) (hw.fills rfl) (.elements _)
  | length c =>
    have hout := hpart (.length c) (hw.fills rfl) (.length (l.normal c))
    simp only [Answers.step]
    split_ifs
    · simp [Fills]
    · simp [Fills]
    · exact hout
  | fix body =>
    have hf := hw.fills rfl
    simp only [Fills] at hf
  | bound b x =>
    simp only [Answers.step]
    split_ifs <;> simp [Fills]
  | equals v =>
    have hf := hw.fills rfl
    simpa only [Answers.step, Fills] using hf
  | _ => simp [Answers.step, Fills]

theorem Sound.step (hs : Sound k rank l) : Sound k (rank + 1) l.step where
  normal hr hm hw hrank := hs.fills_normal_step hr hm hw (Nat.le_of_lt_succ hrank)
  conj hj hrank :=
    ⟨hs.fills_conj_step hj (Nat.le_of_lt_succ hrank),
      hs.exposes_conj_step hj (Nat.le_of_lt_succ hrank)⟩
  disj _ _ hf _ := fills_disj_step hf

theorem Sound.after (l : Answers) (n : Nat) : Sound k n (l.after n) := by
  induction n with
  | zero =>
    exact ⟨fun _ _ _ h => absurd h (Nat.not_lt_zero _), fun _ h => absurd h (Nat.not_lt_zero _),
      fun _ _ _ h => absurd h (Nat.not_lt_zero _)⟩
  | succ n ih => exact ih.step

end Stagewise.Constraint
