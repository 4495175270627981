import Mathlib.Logic.Relation
import TapeMachine.Proofs.Brackets.Replacement
import TapeMachine.Proofs.Peephole.Folding
import TapeMachine.Proofs.Peephole.Word

/-!
# The peephole pass as rewriting

Whatever the operations are, the pass does nothing but rewrite a few neighbours at a time by one of
six rules (`rewrites_optimize`). It comes through if every number that it adds up is there.
-/
namespace TapeMachine

/-- The payload that an operation needs to be carried out, whatever program it stands in. -/
def Op.HasOperand (op : Op) : Prop :=
  match op.tag with
  | .move | .add | .seek => ∃ n, op.arg = some n
  | .set => ∃ v, op.arg = some v ∧ SignedByte v
  | _ => True

/-- The number without which an operation cannot be merged with another one. -/
def Op.HasNumber (op : Op) : Prop :=
  match op.tag with
  | .move | .add | .set => ∃ n, op.arg = some n
  | _ => True

theorem Op.HasOperand.hasNumber {op : Op} (h : op.HasOperand) : op.HasNumber := by
  obtain ⟨tag, arg⟩ := op
  cases tag with
  | move | add => exact h
  | set =>
    obtain ⟨v, hv, -⟩ := h
    exact ⟨v, hv⟩
  | _ => exact trivial

theorem Op.hasNumber_ofCommand (c : Command) : (ofCommand c).HasNumber := by
  cases c with
  | left | right | increment | decrement => exact ⟨_, rfl⟩
  | _ => exact trivial

/-- One rule of the pass, for operations that stand next to each other. -/
inductive Rewrite : List Op → List Op → Prop
  | moves (m n : ℤ) : Rewrite [⟨.move, some m⟩, ⟨.move, some n⟩] [⟨.move, some (m + n)⟩]
  | additions (m n : ℤ) : Rewrite [⟨.add, some m⟩, ⟨.add, some n⟩] [⟨.add, some (wrap (m + n))⟩]
  | setAddition (v n : ℤ) : Rewrite [⟨.set, some v⟩, ⟨.add, some n⟩] [⟨.set, some (wrap (v + n))⟩]
  | emptying (i j : Option ℤ) :
    Rewrite [⟨.openLoop, i⟩, ⟨.add, some (-1)⟩, ⟨.closeLoop, j⟩] [⟨.set, some 0⟩]
  | seeking (i j n : Option ℤ) :
    Rewrite [⟨.openLoop, i⟩, ⟨.move, n⟩, ⟨.closeLoop, j⟩] [⟨.seek, n⟩]
  | idle {op : Op} (h : op.isNoop = true) : Rewrite [op] []

/-- A rule applied somewhere in a list. -/
inductive RewritesIn : List Op → List Op → Prop
  | rule (x y : List Op) {l r : List Op} (h : Rewrite l r) :
    RewritesIn (x ++ (l ++ y)) (x ++ (r ++ y))

abbrev Rewrites : List Op → List Op → Prop := Relation.ReflTransGen RewritesIn

variable {p q l r ops ops' : List Op} {op cur : Op}

theorem Rewrites.of_rule (h : Rewrite l r) : Rewrites l r := by
  have hin := RewritesIn.rule [] [] h
  rw [List.append_nil, List.append_nil] at hin
  exact .single hin

theorem Rewrites.append_right (h : Rewrites p q) (z : List Op) : Rewrites (p ++ z) (q ++ z) := by
  induction h with
  | refl => exact .refl
  | tail _ last ih =>
    obtain ⟨x, y, h⟩ := last
    have hin := RewritesIn.rule x (y ++ z) h
    refine ih.tail ?_
    simpa [List.append_assoc] using hin

theorem Rewrites.append_left (h : Rewrites p q) (z : List Op) : Rewrites (z ++ p) (z ++ q) := by
  induction h with
  | refl => exact .refl
  | tail _ last ih =>
    obtain ⟨x, y, h⟩ := last
    have hin := RewritesIn.rule (z ++ x) y h
    refine ih.tail ?_
    simpa [List.append_assoc] using hin

section Operands

theorem Rewrite.hasOperand (h : Rewrite l r) (hl : ∀ op ∈ l, op.HasOperand) :
    ∀ op ∈ r, op.HasOperand := by
  cases h with
  | moves | additions => simp [Op.HasOperand]
  | setAddition => simp [Op.HasOperand, signedByte_wrap]
  | emptying => simp [Op.HasOperand, show SignedByte 0 by decide]
  | seeking => simpa [Op.HasOperand] using hl
  | idle => simp

theorem Rewrite.hasNumber (h : Rewrite l r) : ∀ op ∈ r, op.HasNumber := by
  cases h <;> simp [Op.HasNumber]

/-- What the rules keep, operation by operation, a sequence of them keeps. -/
theorem Rewrites.forall_of_rule {P : Op → Prop}
    (rule : ∀ {l r : List Op}, Rewrite l r → (∀ op ∈ l, P op) → ∀ op ∈ r, P op)
    (h : Rewrites p q) (hp : ∀ op ∈ p, P op) : ∀ op ∈ q, P op := by
  induction h with
  | refl => exact hp
  | tail _ last ih =>
    obtain ⟨x, y, h⟩ := last
    simp only [List.forall_mem_append] at ih ⊢
    exact ⟨ih.1, rule h ih.2.1, ih.2.2⟩

theorem Rewrites.hasOperand (h : Rewrites p q) (hp : ∀ op ∈ p, op.HasOperand) :
    ∀ op ∈ q, op.HasOperand :=
  h.forall_of_rule Rewrite.hasOperand hp

theorem Rewrites.hasNumber (h : Rewrites p q) (hp : ∀ op ∈ p, op.HasNumber) :
    ∀ op ∈ q, op.HasNumber :=
  h.forall_of_rule (fun rule _ => rule.hasNumber) hp

end Operands

section Balance

open Brackets

theorem bracket?_of_isNoop (h : op.isNoop = true) : op.bracket? = none := by
  obtain ⟨tag, arg⟩ := op
  cases tag <;> simp_all [Op.isNoop, Op.bracket?]

theorem balanced_loop : Balanced [some .opening, none, some .closing] := by decide

/-- The rules keep to whole loops. -/
theorem Rewrite.balanced (h : Rewrite l r) :
    Balanced (l.map Op.bracket?) ∧ Balanced (r.map Op.bracket?) := by
  cases h with
  | moves | additions | setAddition =>
    exact ⟨.of_forall_none (by simp [Op.bracket?]), .of_forall_none (by simp [Op.bracket?])⟩
  | emptying | seeking => exact ⟨balanced_loop, .of_forall_none (by simp [Op.bracket?])⟩
  | idle h => exact ⟨.of_forall_none (by simp [bracket?_of_isNoop h]), .nil⟩

theorem RewritesIn.balanced (h : RewritesIn p q) (hp : Balanced (p.map Op.bracket?)) :
    Balanced (q.map Op.bracket?) := by
  obtain ⟨x, y, rule⟩ := h
  rw [List.map_append, List.map_append] at hp ⊢
  exact rule.balanced.1.replace rule.balanced.2 hp

end Balance

namespace Window

variable {w w' : Window}

/-- What is taken in is rewritten together with the newest of the operations held back. -/
theorem rewrites_of_combine (h : w.combine cur = .ok (some w')) :
    Rewrites (w.toList ++ [cur]) w'.toList := by
  -- The older operation is left alone, unless a loop has come to its end.
  have hkeep (older : Option Op) {last op last' : Op} (rule : Rewrite [last, op] [last']) :
      Rewrites (toList ⟨older, some last⟩ ++ [op]) (toList ⟨older, some last'⟩) := by
    simpa [toList] using (Rewrites.of_rule rule).append_left older.toList
  cases combine_eq_some_iff.mp h with
  | moves older m n => exact hkeep older (.moves m n)
  | additions older m n => exact hkeep older (.additions m n)
  | setAddition older v n => exact hkeep older (.setAddition v n)
  | emptying x y => exact .of_rule (.emptying x y)
  | seeking x n y => exact .of_rule (.seeking x y n)

theorem exists_sum {a b : Op} (ha : ∃ n, a.arg = some n) (hb : ∃ n, b.arg = some n)
    (f : ℤ → Window) : ∃ r, (do let n ← sum a b; return some (f n)) = Except.ok r := by
  obtain ⟨m, hm⟩ := ha
  obtain ⟨n, hn⟩ := hb
  exact ⟨some (f (m + n)), by rw [sum, hm, hn]; rfl⟩

/-- Only a number that is missing can stop the pass. -/
theorem exists_combine (hw : ∀ op ∈ w.toList, op.HasNumber) (hcur : cur.HasNumber) :
    ∃ r, w.combine cur = .ok r := by
  obtain ⟨older, newer⟩ := w
  cases newer with
  | none => exact ⟨none, rfl⟩
  | some last =>
    obtain ⟨tag', arg'⟩ := last
    obtain ⟨tag, arg⟩ := cur
    have hlast : Op.HasNumber ⟨tag', arg'⟩ := hw _ (by simp [toList])
    unfold combine
    dsimp only
    split
    · exact exists_sum hlast hcur _
    · exact exists_sum hlast hcur _
    · exact exists_sum hlast hcur _
    · exact ⟨_, rfl⟩
    · exact ⟨_, rfl⟩

theorem rewrites_settle (w : Window) : Rewrites w.toList w.settle.toList := by
  obtain ⟨older, newer⟩ := w
  unfold settle
  split_ifs with h
  · obtain ⟨op, rfl, hop⟩ := (Option.any_eq_true _ _).mp h
    simpa [toList] using (Rewrites.of_rule (.idle hop)).append_left older.toList
  · exact .refl

end Window

namespace Pass

variable {s t : Pass}

/-- Taking in an operation rewrites what the pass has so far together with it. -/
theorem rewrites_feed (h : s.feed cur = .ok t) : Rewrites (s.toList ++ [cur]) t.toList := by
  rcases feed_cases h with ⟨-, rfl⟩ | ⟨w, hc, rfl⟩
  · rw [toList, toList, Window.toList, Window.toList]
    simp [Relation.ReflTransGen.refl]
  · have hfold := (Window.rewrites_of_combine hc).append_left s.emitted.toList
    have hsettle := (Window.rewrites_settle w).append_left s.emitted.toList
    rw [toList, List.append_assoc]
    exact hfold.trans hsettle

theorem rewrites_foldlM (h : ops.foldlM feed s = .ok t) : Rewrites (s.toList ++ ops) t.toList := by
  induction ops generalizing s with
  | nil =>
    cases h
    simp [Relation.ReflTransGen.refl]
  | cons op ops ih =>
    rw [List.foldlM_cons] at h
    cases hfeed : s.feed op with
    | error f =>
      rw [hfeed] at h
      cases h
    | ok u =>
      rw [hfeed] at h
      have hfirst := (rewrites_feed hfeed).append_right ops
      rw [List.append_assoc, List.singleton_append] at hfirst
      exact hfirst.trans (ih h)

theorem exists_feed (hs : ∀ op ∈ s.toList, op.HasNumber) (hcur : cur.HasNumber) :
    ∃ t, s.feed cur = .ok t := by
  have hw : ∀ op ∈ s.window.toList, op.HasNumber := by
    intro op hop
    exact hs op (List.mem_append_right _ hop)
  obtain ⟨r, hr⟩ := Window.exists_combine hw hcur
  cases r with
  | none => exact ⟨_, feed_of_combine_none hr⟩
  | some w => exact ⟨_, feed_of_combine_some hr⟩

theorem exists_foldlM (hs : ∀ op ∈ s.toList, op.HasNumber) (hops : ∀ op ∈ ops, op.HasNumber) :
    ∃ t, ops.foldlM feed s = .ok t := by
  induction ops generalizing s with
  | nil => exact ⟨s, rfl⟩
  | cons op ops ih =>
    rw [List.forall_mem_cons] at hops
    obtain ⟨u, hu⟩ := exists_feed hs hops.1
    have hkept : ∀ x ∈ u.toList, x.HasNumber := by
      apply (rewrites_feed hu).hasNumber
      rw [List.forall_mem_append, List.forall_mem_singleton]
      exact ⟨hs, hops.1⟩
    obtain ⟨t, ht⟩ := ih hkept hops.2
    exact ⟨t, by rw [List.foldlM_cons, hu]; exact ht⟩

end Pass

/-- The pass rewrites. -/
theorem rewrites_optimize (h : optimize ops = .ok ops') : Rewrites ops ops' := by
  cases hfold : ops.foldlM Pass.feed {} with
  | error f =>
    rw [optimize, hfold] at h
    cases h
  | ok t =>
    rw [optimize, hfold] at h
    cases h
    exact Pass.rewrites_foldlM hfold

/-- The pass comes through if every number is there. -/
theorem exists_optimize_of_numbers (h : ∀ op ∈ ops, op.HasNumber) :
    ∃ ops', optimize ops = .ok ops' := by
  obtain ⟨t, ht⟩ := Pass.exists_foldlM (s := {}) (by simp [Pass.toList, Window.toList]) h
  exact ⟨t.toList, by rw [optimize, ht]; rfl⟩

theorem exists_optimize (h : ∀ op ∈ ops, op.HasOperand) : ∃ ops', optimize ops = .ok ops' :=
  exists_optimize_of_numbers fun op hop => (h op hop).hasNumber

end TapeMachine
