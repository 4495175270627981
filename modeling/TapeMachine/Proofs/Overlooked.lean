import TapeMachine.Proofs.Peephole.Reducible

/-!
# Rules that are left applicable

The pass looks back at what it holds back and never at what it has let go. An operation that cancels
leaves a slot empty, so that the last operation in front of it may have been let go already when
the next one comes in. Groups that go unnoticed in this way are the only ones that are left, and a
second pass finds them.
-/
namespace TapeMachine

/-- A rule applies to a group that ends at a place. -/
def ReducibleAt (ops : List Op) (j : ℕ) : Prop := j < ops.length ∧ EndsReducible (ops.take (j + 1))

/-- No rule applies anywhere. -/
def Irreducible (ops : List Op) : Prop := ∀ r, Reducible r → ¬ r <:+: ops

section Places

variable {ops a b : List Op} {cur op op' : Op} {j : ℕ}

theorem reducibleAt_append (h : j < a.length) : ReducibleAt (a ++ b) j ↔ ReducibleAt a j := by
  have hlt : j < (a ++ b).length := by
    rw [List.length_append]
    omega
  rw [ReducibleAt, ReducibleAt, List.take_append_of_le_length h, and_iff_right hlt, and_iff_right h]

theorem reducibleAt_concat :
    ReducibleAt (a ++ [op]) j ↔
      ReducibleAt a j ∨ j = a.length ∧ EndsReducible (a ++ [op]) := by
  rcases lt_trichotomy j a.length with h | rfl | h
  · rw [reducibleAt_append h, or_iff_left fun h' => h.ne h'.1]
  · simp [ReducibleAt, List.take_of_length_le]
  · simp only [ReducibleAt, List.length_append, List.length_singleton]
    omega

theorem reducibleAt_of_concat : ReducibleAt a j ↔ ReducibleAt (a ++ [op]) j ∧ j < a.length := by
  rw [reducibleAt_concat]
  constructor
  · exact fun h => ⟨.inl h, h.1⟩
  · rintro ⟨h | ⟨rfl, -⟩, hlt⟩
    · exact h
    · exact absurd hlt (lt_irrefl _)

theorem reducibleAt_congr_tag (htag : op'.tag = op.tag) :
    ReducibleAt (a ++ [op']) j ↔ ReducibleAt (a ++ [op]) j := by
  rw [reducibleAt_concat, reducibleAt_concat]
  exact or_congr_right (and_congr_right fun _ => ⟨fun h => h.congr_tag htag.symm,
    fun h => h.congr_tag htag⟩)

theorem not_endsReducible_of_tag (h : op.tag = .openLoop ∨ op.tag = .set ∨ op.tag = .seek) :
    ¬ EndsReducible (a ++ [op]) := by
  intro he
  have htag := he.tag_of_concat
  rcases h with h | h | h <;> simp [h] at htag

/-- An opening bracket ends no group, and the operation that a loop becomes does not either. -/
theorem reducibleAt_idiom {x body : Op} (hx : x.tag = .openLoop)
    (hop : op.tag = .set ∨ op.tag = .seek) :
    ReducibleAt (a ++ [op]) j ↔ ReducibleAt (a ++ [x, body]) j ∧ j < (a ++ [op]).length := by
  have hfirst : a ++ [x, body] = (a ++ [x]) ++ [body] := by simp
  have hlen : (a ++ [op]).length = (a ++ [x]).length := by simp
  rw [hfirst, hlen, ← reducibleAt_of_concat, reducibleAt_concat, reducibleAt_concat,
    or_iff_left fun h => not_endsReducible_of_tag (.inr hop) h.2,
    or_iff_left fun h => not_endsReducible_of_tag (.inl hx) h.2]

theorem irreducible_iff : Irreducible ops ↔ ∀ j, ¬ ReducibleAt ops j := by
  constructor
  · rintro h j ⟨-, r, hr, hs⟩
    exact h r hr (hs.isInfix.trans (List.take_prefix _ _).isInfix)
  · rintro h r hr ⟨x, y, rfl⟩
    have hlen := hr.length_cases
    have hxr : (x ++ r).length = x.length + r.length := List.length_append
    refine h (x.length + r.length - 1) ⟨?_, r, hr, ?_⟩
    · rw [List.length_append]
      omega
    · rw [show x.length + r.length - 1 + 1 = (x ++ r).length by omega, List.take_left]
      exact List.suffix_append x r

theorem irreducible_nil : Irreducible [] := by
  rw [irreducible_iff]
  rintro j ⟨h, -⟩
  simp at h

theorem irreducible_concat :
    Irreducible (a ++ [op]) ↔ Irreducible a ∧ ¬ EndsReducible (a ++ [op]) := by
  simp only [irreducible_iff, reducibleAt_concat, not_or, forall_and]
  simp

end Places

namespace Pass

variable {s t u : Pass} {ops : List Op} {cur : Op} {j : ℕ}

/-- With this operation a rule applies to a group the first of which has been let go already. -/
def Overlooks (s : Pass) (cur : Op) : Prop :=
  ∃ x r, s.toList ++ [cur] = x ++ r ∧ Reducible r ∧ x.length < s.emitted.size

theorem length_toList (s : Pass) : s.toList.length = s.emitted.size + s.window.toList.length := by
  simp [toList]

theorem window_suffix (s : Pass) (cur : Op) : s.window.toList ++ [cur] <:+ s.toList ++ [cur] := by
  rw [toList, List.append_assoc]
  exact List.suffix_append _ _

/-- What is overlooked is let in. -/
theorem Overlooks.combine (h : s.Overlooks cur) : s.window.combine cur = .ok none := by
  refine s.window.combine_eq_none cur fun ⟨r', hr', hs'⟩ => ?_
  obtain ⟨x, r, heq, hr, hx⟩ := h
  obtain rfl := hr.suffix_unique hr' ⟨x, heq.symm⟩ (hs'.trans (s.window_suffix cur))
  have hlen := congrArg List.length heq
  have hle := hs'.length_le
  have hs := s.length_toList
  simp only [List.length_append, List.length_singleton] at hlen hle
  omega

/-- What is let in though a rule applies is overlooked. -/
theorem overlooks_of_combine (packed : s.window.Packed) (hc : s.window.combine cur = .ok none)
    (h : EndsReducible (s.toList ++ [cur])) : s.Overlooks cur := by
  obtain ⟨r, hr, x, hx⟩ := h
  refine ⟨x, r, hx.symm, hr, ?_⟩
  by_contra hle
  refine Window.combine_ne_none packed ⟨r, hr, ?_⟩ hc
  refine List.suffix_of_suffix_length_le ⟨x, hx⟩ (s.window_suffix cur) ?_
  have hlen := congrArg List.length hx
  have hs := s.length_toList
  simp only [List.length_append, List.length_singleton] at hlen ⊢
  omega

theorem Overlooks.endsReducible (h : s.Overlooks cur) : EndsReducible (s.toList ++ [cur]) := by
  obtain ⟨x, r, heq, hr, -⟩ := h
  exact ⟨r, hr, x, heq.symm⟩

theorem packed_feed (h : s.feed cur = .ok t) : t.window.Packed := by
  rcases feed_cases h with ⟨-, rfl⟩ | ⟨w, hc, rfl⟩
  · exact nofun
  · have hw : w.newer ≠ none := by
      rcases Window.combine_cases hc with ⟨_, _, -, rfl, -⟩ | ⟨_, _, _, -, rfl, -⟩ <;> exact nofun
    unfold Window.settle
    split
    · exact fun _ => rfl
    · exact fun hnone => absurd hnone hw

theorem toList_let_in (s : Pass) (cur : Op) :
    toList ⟨s.emitted ++ s.window.older.toList, ⟨s.window.newer, some cur⟩⟩ =
      s.toList ++ [cur] := by
  simp [toList, Window.toList]

/-- An operation that is taken in merges with the last one, which may be dropped then, or makes one
operation of a loop. -/
theorem toList_feed_of_combine_some {w : Window} (hc : s.window.combine cur = .ok (some w)) :
    (∃ (a : List Op) (last last' : Op), s.toList = a ++ [last] ∧ last'.tag = last.tag ∧
      (toList ⟨s.emitted, w.settle⟩ = a ∨ toList ⟨s.emitted, w.settle⟩ = a ++ [last'])) ∨
    ∃ (a : List Op) (x body op : Op), s.toList = a ++ [x, body] ∧ x.tag = .openLoop ∧
      (op.tag = .set ∨ op.tag = .seek) ∧ toList ⟨s.emitted, w.settle⟩ = a ++ [op] := by
  obtain ⟨e, older, newer⟩ := s
  rcases Window.combine_cases hc with
    ⟨last, last', heq, rfl, htag, -⟩ | ⟨x, body, op, heq, rfl, hx, hop⟩
  · obtain ⟨-, rfl⟩ := Window.mk.inj heq
    refine .inl ⟨e.toList ++ older.toList, last, last', by simp [toList, Window.toList], htag, ?_⟩
    unfold Window.settle
    split
    · exact .inl (by simp [toList, Window.toList])
    · exact .inr (by simp [toList, Window.toList])
  · obtain ⟨rfl, rfl⟩ := Window.mk.inj heq
    have hnoop : op.isNoop = false := by
      rcases hop with hop | hop <;> simp [Op.isNoop, hop]
    refine .inr ⟨e.toList, x, body, op, by simp [toList, Window.toList], hx, hop, ?_⟩
    simp [toList, Window.toList, Window.settle, hnoop]

/-- What one operation changes: groups go with the operations that are taken back, and a new one is
left when it is overlooked. -/
theorem reducibleAt_feed (packed : s.window.Packed) (h : s.feed cur = .ok t) :
    ReducibleAt t.toList j ↔
      ReducibleAt s.toList j ∧ j < t.toList.length ∨ j = s.toList.length ∧ s.Overlooks cur := by
  rcases feed_cases h with ⟨hc, rfl⟩ | ⟨w, hc, rfl⟩
  · rw [toList_let_in, reducibleAt_concat]
    constructor
    · rintro (hj | ⟨hj, hends⟩)
      · exact .inl ⟨hj, by simpa using hj.1.le⟩
      · exact .inr ⟨hj, overlooks_of_combine packed hc hends⟩
    · rintro (⟨hj, -⟩ | ⟨hj, hover⟩)
      · exact .inl hj
      · exact .inr ⟨hj, hover.endsReducible⟩
  · have hover : ¬ s.Overlooks cur := by
      intro hover
      rw [hover.combine] at hc
      cases hc
    rw [or_iff_left fun h => hover h.2]
    rcases toList_feed_of_combine_some hc with
      ⟨a, last, last', hs, htag, ht | ht⟩ | ⟨a, x, body, op, hs, hx, hop, ht⟩
    · rw [hs, ht]
      exact reducibleAt_of_concat
    · rw [hs, ht, reducibleAt_congr_tag htag]
      exact ⟨fun hj => ⟨hj, by simpa using hj.1⟩, And.left⟩
    · rw [hs, ht]
      exact reducibleAt_idiom hx hop

theorem packed_reads (h : Reads {} ops t) : t.window.Packed := by
  induction ops using List.reverseRecOn generalizing t with
  | nil =>
    obtain rfl := reads_nil.mp h
    exact fun _ => rfl
  | append_singleton ops cur ih =>
    obtain ⟨s, hs, hfeed⟩ := reads_append.mp h
    exact packed_feed (reads_singleton.mp hfeed)

/-- The groups that are left at the end are those that were overlooked on the way and of which the
last operation has not been taken back. -/
theorem reducibleAt_reads (h : Reads {} ops t) :
    ReducibleAt t.toList j ↔
      ∃ before cur after s, ops = before ++ cur :: after ∧ Reads {} before s ∧
        s.toList.length = j ∧ s.Overlooks cur ∧
        ∀ v, v <+: after → ∀ u, Reads {} (before ++ cur :: v) u → j < u.toList.length := by
  induction ops using List.reverseRecOn generalizing t with
  | nil =>
    obtain rfl := reads_nil.mp h
    simp [ReducibleAt, toList, Window.toList]
  | append_singleton ops last ih =>
    obtain ⟨s, hs, hfeed⟩ := reads_append.mp h
    rw [reads_singleton] at hfeed
    rw [reducibleAt_feed (packed_reads hs) hfeed, ih hs]
    constructor
    · rintro (⟨⟨before, cur, after, u, rfl, hu, hj, hover, hkept⟩, hlt⟩ | ⟨rfl, hover⟩)
      · refine ⟨before, cur, after ++ [last], u, by simp, hu, hj, hover, fun v hv w hw => ?_⟩
        rcases List.prefix_concat_iff.mp hv with rfl | hv
        · rw [← List.cons_append, ← List.append_assoc] at hw
          rwa [← h.unique hw]
        · exact hkept v hv w hw
      · refine ⟨ops, last, [], s, rfl, hs, rfl, hover, fun v hv w hw => ?_⟩
        obtain rfl := List.prefix_nil.mp hv
        obtain rfl := h.unique hw
        have hat := (reducibleAt_feed (packed_reads hs) hfeed).mpr (.inr ⟨rfl, hover⟩)
        exact hat.1
    · rintro ⟨before, cur, after, u, heq, hu, hj, hover, hkept⟩
      rcases List.eq_nil_or_concat after with rfl | ⟨after, x, rfl⟩
      · obtain ⟨rfl, hcur⟩ := List.append_inj' heq rfl
        obtain rfl := List.singleton_inj.mp hcur
        obtain rfl := hs.unique hu
        exact .inr ⟨hj.symm, hover⟩
      · rw [List.concat_eq_append, ← List.cons_append, ← List.append_assoc] at heq
        obtain ⟨rfl, hx⟩ := List.append_inj' heq rfl
        obtain rfl := List.singleton_inj.mp hx
        refine .inl ⟨⟨before, cur, after, u, rfl, hu, hj, hover, fun v hv => ?_⟩, ?_⟩
        · exact hkept v (hv.trans (by simp))
        · exact hkept _ List.prefix_rfl t (by simpa using h)

/-- With whatever comes in no group is overlooked: nothing has been let go, or both slots are in
use, or the only operation held back belongs to no loop that could end. -/
def Filled (s : Pass) : Prop :=
  s.emitted.size = 0 ∨ s.window.older ≠ none ∨
    ∃ last, s.window.newer = some last ∧ (last.tag = .set ∨ last.tag = .seek)

/-- A group that is overlooked has all that is held back in it, and more. -/
theorem Overlooks.exists_group (h : s.Overlooks cur) :
    0 < s.emitted.size ∧ ∃ r, Reducible r ∧ s.window.toList.length + 2 ≤ r.length ∧
      ∀ op ∈ s.window.toList, op ∈ r := by
  obtain ⟨x, r, heq, hr, hx⟩ := h
  have hlen := congrArg List.length heq
  rw [List.length_append, List.length_append, length_toList, List.length_singleton] at hlen
  have hsuf : s.window.toList ++ [cur] <:+ r := by
    refine List.suffix_of_suffix_length_le (s.window_suffix cur) ⟨x, heq.symm⟩ ?_
    rw [List.length_append, List.length_singleton]
    omega
  exact ⟨by omega, r, hr, by omega, fun op hop => hsuf.subset (List.mem_append_left _ hop)⟩

theorem Filled.not_overlooks (packed : s.window.Packed) (h : s.Filled) : ¬ s.Overlooks cur := by
  intro hover
  obtain ⟨hpos, r, hr, hlen, hmem⟩ := hover.exists_group
  have hcases := hr.length_cases
  rcases h with h | h | ⟨last, hlast, htag⟩
  · omega
  · have hfull := packed.length_toList h
    omega
  · have hin : last ∈ s.window.toList := by simp [Window.toList, hlast]
    have hpos := List.length_pos_of_mem hin
    obtain ⟨hset, hseek⟩ := hr.tag_ne_of_length (by omega) last (hmem last hin)
    exact htag.elim hset hseek

/-- Both slots stay in use unless an operation cancels. -/
theorem filled_feed (packed : s.window.Packed) (filled : s.Filled) (h : s.feed cur = .ok t)
    (kept : cur.tag ≠ .closeLoop → s.toList.length ≤ t.toList.length) : t.Filled := by
  obtain ⟨e, older, newer⟩ := s
  rcases feed_cases h with ⟨-, rfl⟩ | ⟨w, hc, rfl⟩
  · cases newer with
    | some y => exact .inr (.inl nofun)
    | none =>
      obtain rfl : older = none := packed rfl
      rcases filled with he | h | ⟨_, h, -⟩
      · exact .inl (by simpa using he)
      · exact absurd rfl h
      · cases h
  · rcases Window.combine_cases hc with
      ⟨last, last', heq, rfl, htag, hall⟩ | ⟨x, body, op, heq, rfl, -, hop⟩
    · obtain ⟨-, rfl⟩ := Window.mk.inj heq
      have hcur : cur.tag ≠ .closeLoop := by
        intro hclose
        have hnone := Window.combine_closing last hclose
        rw [hall none] at hnone
        cases hnone
      have hlen := kept hcur
      rw [length_toList, length_toList] at hlen
      by_cases hnoop : last'.isNoop = true
      · simp [Window.settle, Window.toList, hnoop] at hlen
      · simp only [Window.settle, Option.any_some, hnoop]
        refine filled.imp id (.imp id ?_)
        rintro ⟨_, hlast, h⟩
        obtain rfl := Option.some.inj hlast
        exact ⟨last', rfl, htag ▸ h⟩
    · have hnoop : op.isNoop = false := by
        rcases hop with hop | hop <;> simp [Op.isNoop, hop]
      exact .inr (.inr ⟨op, by simp [Window.settle, hnoop], hop⟩)

/-- No operation but a closing bracket takes one back. -/
def Kept (ops : List Op) : Prop :=
  ∀ (n : ℕ) (cur : Op), ops[n]? = some cur → cur.tag ≠ .closeLoop → ∀ s u,
    Reads {} (ops.take n) s → Reads {} (ops.take (n + 1)) u → s.toList.length ≤ u.toList.length

theorem irreducible_reads (h : Reads {} ops t) (kept : Kept ops) :
    t.Filled ∧ Irreducible t.toList := by
  induction ops using List.reverseRecOn generalizing t with
  | nil =>
    obtain rfl := reads_nil.mp h
    exact ⟨.inl rfl, irreducible_nil⟩
  | append_singleton ops cur ih =>
    obtain ⟨s, hs, hfeed⟩ := reads_append.mp h
    rw [reads_singleton] at hfeed
    have hpacked := packed_reads hs
    have hprefix : Kept ops := by
      intro n cur' hn hcur s u hs hu
      have hlt := (List.getElem?_eq_some_iff.mp hn).1
      refine kept n cur' (by rw [List.getElem?_append_left hlt, hn]) hcur s u ?_ ?_
      · rwa [List.take_append_of_le_length hlt.le]
      · rwa [List.take_append_of_le_length hlt]
    obtain ⟨hfilled, hirred⟩ := ih hs hprefix
    have hlast : cur.tag ≠ .closeLoop → s.toList.length ≤ t.toList.length := by
      intro hcur
      refine kept ops.length cur (by simp) hcur s t (by simpa using hs) ?_
      rwa [List.take_of_length_le (by simp)]
    refine ⟨filled_feed hpacked hfilled hfeed hlast, ?_⟩
    rw [irreducible_iff] at hirred ⊢
    intro j
    rw [reducibleAt_feed hpacked hfeed, not_or]
    exact ⟨fun hj => hirred j hj.1, fun hj => hfilled.not_overlooks hpacked hj.2⟩

theorem length_feed_le (h : s.feed cur = .ok t) : t.toList.length ≤ s.toList.length + 1 := by
  rcases feed_cases h with ⟨-, rfl⟩ | ⟨w, hc, rfl⟩
  · rw [toList_let_in, List.length_append, List.length_singleton]
  · rcases toList_feed_of_combine_some hc with
      ⟨a, last, last', hs, -, ht | ht⟩ | ⟨a, x, body, op, hs, -, -, ht⟩ <;> rw [hs, ht]
    all_goals
      simp only [List.length_append, List.length_cons, List.length_nil]
      omega

theorem length_reads_le (h : Reads s ops t) : t.toList.length ≤ s.toList.length + ops.length := by
  induction ops generalizing s with
  | nil =>
    obtain rfl := reads_nil.mp h
    exact le_rfl
  | cons cur ops ih =>
    obtain ⟨u, hfeed, hu⟩ := reads_cons.mp h
    have := length_feed_le hfeed
    have := ih hu
    rw [List.length_cons]
    omega

/-- A list that comes out as long as it was has had nothing taken back. -/
theorem kept_of_length (h : Reads {} ops t) (hlen : t.toList.length = ops.length) : Kept ops := by
  intro n cur hn _ s u hs hu
  have hlt := (List.getElem?_eq_some_iff.mp hn).1
  have hrest : Reads u (ops.drop (n + 1)) t := by
    rw [← List.take_append_drop (n + 1) ops, reads_append] at h
    obtain ⟨v, hv, hrest⟩ := h
    rwa [hu.unique hv]
  have hle : s.toList.length ≤ 0 + (ops.take n).length := length_reads_le hs
  have hle' := length_reads_le hrest
  rw [List.length_take] at hle
  rw [List.length_drop] at hle'
  omega

theorem reads_of_irreducible (h : Irreducible ops) : ∃ t, Reads {} ops t ∧ t.toList = ops := by
  induction ops using List.reverseRecOn with
  | nil => exact ⟨{}, reads_nil.mpr rfl, rfl⟩
  | append_singleton ops cur ih =>
    obtain ⟨hirred, hends⟩ := irreducible_concat.mp h
    obtain ⟨s, hs, rfl⟩ := ih hirred
    have hc : s.window.combine cur = .ok none := by
      refine s.window.combine_eq_none cur fun ⟨r, hr, hsuf⟩ => hends ⟨r, hr, ?_⟩
      exact hsuf.trans (s.window_suffix cur)
    refine ⟨_, reads_append.mpr ⟨s, hs, reads_singleton.mpr (feed_of_combine_none hc)⟩, ?_⟩
    exact toList_let_in s cur

end Pass

open Pass

variable {ops : List Op}

/-- A pass changes nothing exactly when no rule applies. -/
theorem optimize_eq_self_iff : optimize ops = .ok ops ↔ Irreducible ops := by
  rw [optimize_eq_ok_iff]
  constructor
  · rintro ⟨t, ht, hops⟩
    have hirred := (irreducible_reads ht (kept_of_length ht (congrArg List.length hops))).2
    rwa [hops] at hirred
  · exact reads_of_irreducible

section Commands

variable {cmds : List Command} {x : List Op} {j : ℕ}

theorem optimized_eq_ok_iff :
    optimized cmds = .ok x ↔ ∃ t, Reads {} (cmds.map Op.ofCommand) t ∧ t.toList = x := by
  rw [optimized_eq, optimize_eq_ok_iff]

/-- What was overlooked among the operations of some commands, told by the commands. -/
theorem reducibleAt_optimized (h : optimized cmds = .ok x) :
    ReducibleAt x j ↔
      ∃ before c after s, cmds = before ++ c :: after ∧
        Reads {} (before.map Op.ofCommand) s ∧ s.toList.length = j ∧
        s.Overlooks (Op.ofCommand c) ∧
        ∀ v, v <+: after → ∀ y, optimized (before ++ c :: v) = .ok y → j < y.length := by
  obtain ⟨t, ht, rfl⟩ := optimized_eq_ok_iff.mp h
  rw [reducibleAt_reads ht]
  constructor
  · rintro ⟨_, _, _, s, heq, hs, hj, hover, hkept⟩
    obtain ⟨before, rest, rfl, rfl, hrest⟩ := List.map_eq_append_iff.mp heq
    obtain ⟨c, after, rfl, rfl, rfl⟩ := List.map_eq_cons_iff.mp hrest
    refine ⟨before, c, after, s, rfl, hs, hj, hover, fun v hv y hy => ?_⟩
    obtain ⟨u, hu, rfl⟩ := optimized_eq_ok_iff.mp hy
    exact hkept _ (hv.map _) u (by simpa using hu)
  · rintro ⟨before, c, after, s, rfl, hs, hj, hover, hkept⟩
    refine ⟨_, _, _, s, by rw [List.map_append, List.map_cons], hs, hj, hover, fun v hv u hu => ?_⟩
    obtain ⟨v, hpre, rfl⟩ := List.prefix_map_iff.mp hv
    exact hkept v hpre _ (optimized_eq_ok_iff.mpr ⟨u, by simpa using hu, rfl⟩)

theorem irreducible_optimized (h : optimized cmds = .ok x)
    (kept : ∀ n c, cmds[n]? = some c → c ≠ .loopEnd → ∀ y z,
      optimized (cmds.take n) = .ok y → optimized (cmds.take (n + 1)) = .ok z →
        y.length ≤ z.length) : Irreducible x := by
  obtain ⟨t, ht, rfl⟩ := optimized_eq_ok_iff.mp h
  refine (irreducible_reads ht fun n cur hn hcur s u hs hu => ?_).2
  rw [List.getElem?_map, Option.map_eq_some_iff] at hn
  obtain ⟨c, hc, rfl⟩ := hn
  rw [← List.map_take] at hs hu
  refine kept n c hc ?_ _ _ (optimized_of_reads hs) (optimized_of_reads hu)
  rintro rfl
  exact hcur rfl

end Commands

/-- A rule is left applicable where the group was overlooked, and nowhere else: its last operation
came in when the first of them had been let go, and it was not taken back later. A second pass
changes nothing exactly when there are no such groups, and there are none if no operation
cancels. -/
theorem optimized_reducible_iff_overlooked (cmds : List Command) :
    ∃ ops, optimized cmds = .ok ops ∧
      (∀ j, ReducibleAt ops j ↔
        ∃ before c after s, cmds = before ++ c :: after ∧
          Reads {} (before.map Op.ofCommand) s ∧ s.toList.length = j ∧
          s.Overlooks (Op.ofCommand c) ∧
          ∀ v, v <+: after → ∀ x, optimized (before ++ c :: v) = .ok x → j < x.length) ∧
      (optimize ops = .ok ops ↔ Irreducible ops) ∧
      ((∀ n c, cmds[n]? = some c → c ≠ .loopEnd → ∀ x y,
        optimized (cmds.take n) = .ok x → optimized (cmds.take (n + 1)) = .ok y →
          x.length ≤ y.length) → Irreducible ops) := by
  obtain ⟨t, -, h⟩ := exists_reads_commands cmds
  exact ⟨t.toList, h, fun _ => reducibleAt_optimized h, optimize_eq_self_iff,
    irreducible_optimized h⟩

/-- In `[->+<]` nothing cancels, and no rule is left. -/
theorem optimized_irreducible_transfer :
    Irreducible [⟨.openLoop, some 0⟩, ⟨.add, some (-1)⟩, ⟨.move, some 1⟩, ⟨.add, some 1⟩,
      ⟨.move, some (-1)⟩, ⟨.closeLoop, some 0⟩] := by
  obtain ⟨ops, hops, -, -, irreducible⟩ := optimized_reducible_iff_overlooked
    [.loopStart, .decrement, .right, .increment, .left, .loopEnd]
  have hruns : ∀ n ≤ 6,
      optimized ([.loopStart, .decrement, .right, .increment, .left, .loopEnd].take n) =
        .ok ([⟨.openLoop, some 0⟩, ⟨.add, some (-1)⟩, ⟨.move, some 1⟩, ⟨.add, some 1⟩,
          ⟨.move, some (-1)⟩, ⟨.closeLoop, some 0⟩].take n) := by decide
  obtain rfl := Except.ok.inj (hops.symm.trans (hruns 6 le_rfl))
  refine irreducible fun n c hc _ x y hx hy => ?_
  have hlt := (List.getElem?_eq_some_iff.mp hc).1
  obtain rfl := Except.ok.inj (hx.symm.trans (hruns n hlt.le))
  obtain rfl := Except.ok.inj (hy.symm.trans (hruns (n + 1) hlt))
  rw [List.length_take, List.length_take]
  omega

/-- The loop `[-><]` counts down again when the two moves have cancelled, but its opening bracket
has been let go by then. A second pass finds it. -/
theorem optimized_overlooks_emptying :
    optimized (commands (symbols "[-><]")) =
        .ok [⟨.openLoop, some 0⟩, ⟨.add, some (-1)⟩, ⟨.closeLoop, some 0⟩] ∧
      ¬ Irreducible [⟨.openLoop, some 0⟩, ⟨.add, some (-1)⟩, ⟨.closeLoop, some 0⟩] ∧
      optimize [⟨.openLoop, some 0⟩, ⟨.add, some (-1)⟩, ⟨.closeLoop, some 0⟩] =
        .ok [⟨.set, some 0⟩] :=
  ⟨by decide, fun h => h _ (.emptying _ _) List.infix_rfl, by decide⟩

end TapeMachine
