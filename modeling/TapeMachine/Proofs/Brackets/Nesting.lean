import Mathlib.Tactic
import TapeMachine.Op

/-!
# Nesting of brackets

Sources and programs are looked at through their brackets alone, one entry for each position.
Opening brackets less closing ones give the depth; a list is balanced if no prefix has negative
depth and the whole has depth zero. Two positions are paired if they hold an opening and a
closing bracket with a balanced list between them; a position has at most one partner.
-/
namespace TapeMachine

inductive Bracket
  | opening
  | closing
  deriving DecidableEq, Repr

def Command.bracket? : Command → Option Bracket
  | .loopStart => some .opening
  | .loopEnd => some .closing
  | _ => none

def Symbol.bracket? : Symbol → Option Bracket
  | .command c => c.bracket?
  | .remark _ => none

def Op.bracket? (op : Op) : Option Bracket :=
  match op.tag with
  | .openLoop => some .opening
  | .closeLoop => some .closing
  | _ => none

@[simp] theorem Op.bracket?_ofCommand (c : Command) : (ofCommand c).bracket? = c.bracket? := by
  cases c <;> rfl

theorem map_bracket?_command (cmds : List Command) :
    (cmds.map Symbol.command).map Symbol.bracket? = cmds.map Command.bracket? := by
  rw [List.map_map]
  rfl

namespace Brackets

def weight : Option Bracket → ℤ
  | some .opening => 1
  | some .closing => -1
  | none => 0

@[simp] theorem weight_none : weight none = 0 := rfl
@[simp] theorem weight_opening : weight (some .opening) = 1 := rfl
@[simp] theorem weight_closing : weight (some .closing) = -1 := rfl

/-- Opening brackets less closing brackets. -/
def depth (l : List (Option Bracket)) : ℤ := (l.map weight).sum

@[simp] theorem depth_nil : depth [] = 0 := rfl

@[simp] theorem depth_cons (x : Option Bracket) (l : List (Option Bracket)) :
    depth (x :: l) = weight x + depth l := by
  simp [depth]

@[simp] theorem depth_append (a b : List (Option Bracket)) :
    depth (a ++ b) = depth a + depth b := by
  simp [depth]

theorem depth_eq_zero_of_forall_none {l : List (Option Bracket)} (h : ∀ x ∈ l, x = none) :
    depth l = 0 := by
  rw [List.eq_replicate_of_mem h]
  simp [depth]

/-- With `d` brackets open before it, no prefix of the list closes one that is not open. -/
def Covers (d : ℤ) (l : List (Option Bracket)) : Prop := ∀ p, p <+: l → 0 ≤ d + depth p

instance (d : ℤ) (l : List (Option Bracket)) : Decidable (Covers d l) :=
  decidable_of_iff (∀ p ∈ l.inits, 0 ≤ d + depth p) (by simp [Covers])

@[simp] theorem covers_nil {d : ℤ} : Covers d [] ↔ 0 ≤ d := by
  simp [Covers]

theorem covers_append {d : ℤ} {a b : List (Option Bracket)} :
    Covers d (a ++ b) ↔ Covers d a ∧ Covers (d + depth a) b := by
  constructor
  · intro h
    refine ⟨fun p hp => h p (hp.trans (List.prefix_append a b)), fun p hp => ?_⟩
    have := h (a ++ p) ((List.prefix_append_right_inj a).mpr hp)
    rw [depth_append] at this
    omega
  · rintro ⟨ha, hb⟩ p hp
    rcases List.prefix_or_prefix_of_prefix hp (List.prefix_append a b) with hp' | ⟨q, rfl⟩
    · exact ha p hp'
    · have := hb q ((List.prefix_append_right_inj a).mp hp)
      rw [depth_append]
      omega

theorem covers_cons {d : ℤ} {x : Option Bracket} {l : List (Option Bracket)} :
    Covers d (x :: l) ↔ 0 ≤ d ∧ Covers (d + weight x) l := by
  have hx : Covers d [x] ↔ 0 ≤ d ∧ 0 ≤ d + weight x := by
    simp [Covers, List.prefix_cons_iff, forall_eq_or_imp]
  rw [← List.singleton_append, covers_append, hx, depth_cons, depth_nil, add_zero]
  constructor
  · exact fun h => ⟨h.1.1, h.2⟩
  · exact fun h => ⟨⟨h.1, by simpa using h.2 [] List.nil_prefix⟩, h.2⟩

theorem Covers.le {d d' : ℤ} {l : List (Option Bracket)} (h : Covers d l) (le : d ≤ d') :
    Covers d' l := by
  intro p hp
  have := h p hp
  omega

/-- Every bracket has its partner. -/
structure Balanced (l : List (Option Bracket)) : Prop where
  nested : Covers 0 l
  closed : depth l = 0

instance (l : List (Option Bracket)) : Decidable (Balanced l) :=
  decidable_of_iff (Covers 0 l ∧ depth l = 0) ⟨fun h => ⟨h.1, h.2⟩, fun h => ⟨h.nested, h.closed⟩⟩

namespace Balanced

theorem nil : Balanced [] := ⟨by simp, rfl⟩

theorem append {a b : List (Option Bracket)} (ha : Balanced a) (hb : Balanced b) :
    Balanced (a ++ b) := by
  refine ⟨covers_append.mpr ⟨ha.nested, ?_⟩, by simp [ha.closed, hb.closed]⟩
  rw [ha.closed]
  exact hb.nested

theorem loop {b : List (Option Bracket)} (hb : Balanced b) :
    Balanced (some .opening :: (b ++ [some .closing])) := by
  refine ⟨covers_cons.mpr ⟨le_rfl, covers_append.mpr ⟨hb.nested.le (by simp), ?_⟩⟩, ?_⟩
  · rw [hb.closed]
    simp [covers_cons]
  · simp [hb.closed]

theorem of_forall_none {l : List (Option Bracket)} (h : ∀ x ∈ l, x = none) : Balanced l := by
  refine ⟨fun p hp => ?_, depth_eq_zero_of_forall_none h⟩
  rw [depth_eq_zero_of_forall_none fun x hx => h x (hp.mem hx), add_zero]

/-- A balanced list cannot be a proper prefix of another one up to a closing bracket. -/
theorem length_le {b b' c c' : List (Option Bracket)} (hb : Balanced b) (hb' : Balanced b')
    (h : b ++ some .closing :: c = b' ++ some .closing :: c') : b'.length ≤ b.length := by
  by_contra hlt
  have hp : b ++ [some .closing] <+: b' := by
    refine List.prefix_of_prefix_length_le (?_ : _ <+: b ++ some .closing :: c) ?_ ?_
    · exact ⟨c, by simp⟩
    · exact ⟨some .closing :: c', h.symm⟩
    · rw [List.length_append, List.length_singleton]
      omega
  have := hb'.nested _ hp
  rw [depth_append, hb.closed] at this
  simp at this

end Balanced

/-- Two stretches have no position in common, or one lies strictly inside the other. -/
def Apart (i j i' j' : ℕ) : Prop := j < i' ∨ j' < i ∨ i < i' ∧ j' < j ∨ i' < i ∧ j < j'

/-- The brackets at two positions belong together: what lies between them is balanced. -/
def Paired (l : List (Option Bracket)) (i j : ℕ) : Prop :=
  ∃ a b c, l = a ++ some .opening :: (b ++ some .closing :: c) ∧ a.length = i ∧
    i + 1 + b.length = j ∧ Balanced b

namespace Paired

variable {l : List (Option Bracket)} {i i' j j' : ℕ}

theorem lt (h : Paired l i j) : i < j := by
  obtain ⟨a, b, c, -, -, rfl, -⟩ := h
  omega

theorem getElem?_left (h : Paired l i j) : l[i]? = some (some .opening) := by
  obtain ⟨a, b, c, rfl, rfl, -, -⟩ := h
  simp

theorem getElem?_right (h : Paired l i j) : l[j]? = some (some .closing) := by
  obtain ⟨a, b, c, rfl, rfl, rfl, -⟩ := h
  have hlen : (a ++ some .opening :: b).length = a.length + 1 + b.length := by
    rw [List.length_append, List.length_cons]
    omega
  rw [← List.cons_append, ← List.append_assoc, ← hlen, List.getElem?_append_right le_rfl,
    Nat.sub_self]
  rfl

theorem right_unique (h : Paired l i j) (h' : Paired l i j') : j = j' := by
  obtain ⟨a, b, c, hl, ha, rfl, hb⟩ := h
  obtain ⟨a', b', c', hl', ha', rfl, hb'⟩ := h'
  obtain ⟨-, hrest⟩ := List.append_inj (hl.symm.trans hl') (ha.trans ha'.symm)
  have heq := (List.cons.injEq _ _ _ _ ▸ hrest).2
  have := hb.length_le hb' heq
  have := hb'.length_le hb heq.symm
  omega

/-- A pair that opens inside another one closes inside it. -/
theorem lt_of_inside (h : Paired l i j) (h' : Paired l i' j') (lo : i < i') (hi : i' < j) :
    j' < j := by
  obtain ⟨a, b, c, rfl, rfl, rfl, hb⟩ := h
  obtain ⟨a', b', c', hl, rfl, rfl, hb'⟩ := h'
  by_contra hle
  obtain ⟨x, rfl⟩ : a ++ [some .opening] <+: a' := by
    refine List.prefix_of_prefix_length_le
      (?_ : _ <+: a ++ some .opening :: (b ++ some .closing :: c)) ?_ ?_
    · exact ⟨b ++ some .closing :: c, by simp⟩
    · exact ⟨_, hl.symm⟩
    · simpa using lo
  have hrest : b ++ some .closing :: c = x ++ some .opening :: (b' ++ some .closing :: c') := by
    simpa using hl
  simp only [List.length_append, List.length_singleton] at hi hle
  obtain ⟨y, rfl⟩ : x ++ [some .opening] <+: b := by
    refine List.prefix_of_prefix_length_le (?_ : _ <+: b ++ some .closing :: c) ?_ ?_
    · exact ⟨b' ++ some .closing :: c', by simp [hrest]⟩
    · exact List.prefix_append _ _
    · rw [List.length_append, List.length_singleton]
      omega
  -- What is left of the outer body closes the inner bracket, but it begins the inner body.
  have hy : y <+: b' := by
    refine List.prefix_of_prefix_length_le (?_ : _ <+: y ++ some .closing :: c) ?_ ?_
    · exact List.prefix_append _ _
    · exact ⟨some .closing :: c', by simpa using hrest.symm⟩
    · simp only [List.length_append, List.length_singleton] at hle
      omega
  have hpos := hb'.nested y hy
  have hstart := hb.nested x (by simp)
  have hzero := hb.closed
  simp at hzero hpos hstart
  omega

theorem left_unique (h : Paired l i j) (h' : Paired l i' j) : i = i' := by
  rcases lt_trichotomy i i' with hlt | rfl | hlt
  · exact absurd (h.lt_of_inside h' hlt h'.lt) (lt_irrefl j)
  · rfl
  · exact absurd (h'.lt_of_inside h hlt h.lt) (lt_irrefl j)

/-- No position holds both an opening and a closing bracket. -/
theorem right_ne_left (h : Paired l i j) (h' : Paired l i' j') : j ≠ i' := by
  rintro rfl
  have := h.getElem?_right
  rw [h'.getElem?_left] at this
  cases this

/-- Two pairs are disjoint, or one is inside the other. -/
theorem apart (h : Paired l i j) (h' : Paired l i' j') (ne : i ≠ i') : Apart i j i' j' := by
  have hne := h.right_ne_left h'
  have hne' := h'.right_ne_left h
  have hin := h.lt_of_inside h'
  have hin' := h'.lt_of_inside h
  unfold Apart
  omega

end Paired
end Brackets
end TapeMachine
