import TapeMachine.Proofs.Peephole.Layout

/-!
# The shape of programs

The only `stop` of a compiled program is its last operation. Every operation has the payload that
goes with its tag, and none of them is idle. The two operations of a loop hold each other's place,
and loops are disjoint or nested.
-/
namespace TapeMachine

open Brackets

/-- The payload of an operation in a compiled program. -/
def Op.HasPayload (op : Op) : Prop :=
  match op.tag with
  | .move | .seek => ∃ n, op.arg = some n ∧ n ≠ 0
  | .add => ∃ n, op.arg = some n ∧ n ≠ 0 ∧ SignedByte n
  | .set => ∃ v, op.arg = some v ∧ SignedByte v
  | .openLoop | .closeLoop => ∃ k : ℕ, op.arg = some (k : ℤ)
  | .print | .read | .stop => op.arg = none
  | .other _ => False

/-- The operations at two places are those of one loop, and each holds the place of the other. -/
structure Joined (code : Array Op) (i j : ℕ) : Prop where
  lt : i < j
  opening : code[i]? = some ⟨.openLoop, some j⟩
  closing : code[j]? = some ⟨.closeLoop, some i⟩

theorem Joined.right_unique {code : Array Op} {i j j' : ℕ} (h : Joined code i j)
    (h' : Joined code i j') : j = j' := by
  have heq := h.opening.symm.trans h'.opening
  simpa using heq

structure WellFormed (code : Array Op) : Prop where
  nonempty : 0 < code.size
  stop : ∀ (k : ℕ) (op : Op), code[k]? = some op → (op.tag = .stop ↔ k + 1 = code.size)
  payload : ∀ (k : ℕ) (op : Op), code[k]? = some op → op.HasPayload
  opening : ∀ (i : ℕ) (op : Op), code[i]? = some op → op.tag = .openLoop → ∃ j, Joined code i j
  closing : ∀ (j : ℕ) (op : Op), code[j]? = some op → op.tag = .closeLoop → ∃ i, Joined code i j
  apart : ∀ i j i' j' : ℕ, Joined code i j → Joined code i' j' → i ≠ i' → Apart i j i' j'

/-- An operation that stands for a stretch of the source has its payload, and is no `stop`. -/
theorem Stands.hasPayload {op : Op} {w : Word} (h : Stands op w) :
    op.HasPayload ∧ op.tag ≠ .stop := by
  cases h with
  | move _ ne => exact ⟨⟨_, rfl, ne⟩, by simp⟩
  | add _ _ byte ne => exact ⟨⟨_, rfl, ne, byte⟩, by simp⟩
  | openLoop _ | closeLoop _ => exact ⟨⟨0, rfl⟩, by simp⟩
  | print _ | read _ => exact ⟨rfl, by simp⟩
  | set _ _ byte => exact ⟨⟨_, rfl, byte⟩, by simp⟩
  | seek _ _ ne => exact ⟨⟨_, rfl, ne⟩, by simp⟩

theorem Op.bracket?_eq_opening_iff {op : Op} : op.bracket? = some .opening ↔ op.tag = .openLoop := by
  unfold bracket?
  split <;> simp_all

theorem Op.bracket?_eq_closing_iff {op : Op} : op.bracket? = some .closing ↔ op.tag = .closeLoop := by
  unfold bracket?
  split <;> simp_all

namespace Account

variable {a : Account} {code : Array Op} {l m r : List Piece} {p q : Piece} {i j k : ℕ} {op : Op}

theorem Loop.joined (hl : a.Loop l p m q r) (h : a.HasProgram code) :
    Joined code l.length (l ++ p :: m).length :=
  ⟨hl.paired_ops.lt, (h.getElem?_loop hl).1, (h.getElem?_loop hl).2⟩

namespace HasProgram

theorem hasPayload_of_origin (hs : a.Sound) (h : Origin a k op) :
    op.HasPayload ∧ (op.tag = .stop ↔ k = a.pieces.length) := by
  cases h with
  | @piece l r p hp _ =>
    obtain ⟨hpayload, htag⟩ := (hs.stands p (by simp [hp])).hasPayload
    exact ⟨hpayload, iff_of_false htag (by simp [hp])⟩
  | opening loop => exact ⟨⟨_, rfl⟩, iff_of_false (by simp) (by simp [loop.pieces])⟩
  | closing loop => exact ⟨⟨_, rfl⟩, iff_of_false (by simp) (by simp [loop.pieces])⟩
  | stop => exact ⟨rfl, iff_of_true rfl rfl⟩

theorem exists_joined_of_opening (h : a.HasProgram code) (hop : code[i]? = some op)
    (htag : op.tag = .openLoop) : ∃ j, Joined code i j ∧ Paired (a.ops.map Op.bracket?) i j := by
  cases h.origin hop with
  | piece _ plain =>
    rw [Op.bracket?_eq_opening_iff.mpr htag] at plain
    cases plain
  | opening loop => exact ⟨_, loop.joined h, loop.paired_ops⟩
  | closing loop => cases htag
  | stop => cases htag

theorem exists_joined_of_closing (h : a.HasProgram code) (hop : code[j]? = some op)
    (htag : op.tag = .closeLoop) : ∃ i, Joined code i j := by
  cases h.origin hop with
  | piece _ plain =>
    rw [Op.bracket?_eq_closing_iff.mpr htag] at plain
    cases plain
  | opening loop => cases htag
  | closing loop => exact ⟨_, loop.joined h⟩
  | stop => cases htag

/-- The loops of a program are pairs of brackets. -/
theorem paired_of_joined (h : a.HasProgram code) (hj : Joined code i j) :
    Paired (a.ops.map Op.bracket?) i j := by
  obtain ⟨j', hj', paired⟩ := h.exists_joined_of_opening hj.opening rfl
  rwa [hj.right_unique hj']

theorem wellFormed (h : a.HasProgram code) (hs : a.Sound) : WellFormed code where
  nonempty := by
    rw [h.size_code]
    exact Nat.succ_pos _
  stop k op hop := by
    rw [(hasPayload_of_origin hs (h.origin hop)).2, h.size_code, Nat.add_right_cancel_iff]
  payload k op hop := (hasPayload_of_origin hs (h.origin hop)).1
  opening i op hop htag := by
    obtain ⟨j, hj, -⟩ := h.exists_joined_of_opening hop htag
    exact ⟨j, hj⟩
  closing j op hop htag := h.exists_joined_of_closing hop htag
  apart i j i' j' hj hj' ne := (h.paired_of_joined hj).apart (h.paired_of_joined hj') ne

end HasProgram
end Account

/-- Every source that compiles has a well-formed program. -/
theorem compile_wellFormed (source : List Symbol) {code : Array Op}
    (h : compile source = .ok code) : WellFormed code :=
  (compile_eq_ok_iff.mp h).wellFormed (Account.sound_ofCommands _)

/-- The outer loop of `,[>+[>]<[-]++<-]` keeps its brackets; those inside have become a `seek` and
a `set`. -/
theorem compile_wellFormed_nested :
    WellFormed #[⟨.read, none⟩, ⟨.openLoop, some 9⟩, ⟨.move, some 1⟩, ⟨.add, some 1⟩,
      ⟨.seek, some 1⟩, ⟨.move, some (-1)⟩, ⟨.set, some 2⟩, ⟨.move, some (-1)⟩, ⟨.add, some (-1)⟩,
      ⟨.closeLoop, some 1⟩, ⟨.stop, none⟩] :=
  compile_wellFormed (symbols ",[>+[>]<[-]++<-]") (by decide)

end TapeMachine
