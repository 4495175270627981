import TapeMachine.Brackets
import TapeMachine.Proofs.Brackets.Pairing

/-!
# Loop tables and links

The table of a source and the linked form of a program are both written by the scan for pairs:
each pair found puts one entry at either of its positions. Both exist for balanced lists only,
and there the entries are the partners.
-/
namespace TapeMachine.Brackets

/-- Writes one entry at both positions of every pair. -/
def tieAll {α : Type} (f g : ℕ → α) (pairs : List (ℕ × ℕ)) (a : Array α) : Array α :=
  pairs.foldl (fun a p => (a.setIfInBounds p.1 (f p.2)).setIfInBounds p.2 (g p.1)) a

@[simp] theorem size_tieAll {α : Type} (f g : ℕ → α) (pairs : List (ℕ × ℕ)) (a : Array α) :
    (tieAll f g pairs a).size = a.size := by
  induction pairs generalizing a with
  | nil => rfl
  | cons p pairs ih =>
    change (tieAll f g pairs _).size = a.size
    rw [ih]
    simp

theorem getElem?_tieAll {α : Type} (f g : ℕ → α) (pairs : List (ℕ × ℕ)) (a : Array α) {k : ℕ}
    (hk : k < a.size) :
    (∃ j, (k, j) ∈ pairs ∧ (tieAll f g pairs a)[k]? = some (f j)) ∨
    (∃ j, (j, k) ∈ pairs ∧ (tieAll f g pairs a)[k]? = some (g j)) ∨
    (∀ j, (k, j) ∉ pairs ∧ (j, k) ∉ pairs) ∧ (tieAll f g pairs a)[k]? = a[k]? := by
  induction pairs generalizing a with
  | nil => exact .inr (.inr ⟨by simp, rfl⟩)
  | cons p pairs ih =>
    obtain ⟨i, j⟩ := p
    let a' := (a.setIfInBounds i (f j)).setIfInBounds j (g i)
    have hsize : a'.size = a.size := by simp [a']
    change (∃ j', _ ∧ (tieAll f g pairs a')[k]? = _) ∨ (∃ j', _ ∧ (tieAll f g pairs a')[k]? = _) ∨
      _ ∧ (tieAll f g pairs a')[k]? = _
    rcases ih a' (hsize ▸ hk) with ⟨n, hn, h⟩ | ⟨n, hn, h⟩ | ⟨hno, h⟩
    · exact .inl ⟨n, List.mem_cons_of_mem _ hn, h⟩
    · exact .inr (.inl ⟨n, List.mem_cons_of_mem _ hn, h⟩)
    · rw [h]
      by_cases hj : k = j
      · subst hj
        exact .inr (.inl ⟨i, by simp, by simp [a', hk]⟩)
      by_cases hi : k = i
      · subst hi
        refine .inl ⟨j, by simp, ?_⟩
        rw [Array.getElem?_setIfInBounds_ne (Ne.symm hj),
          Array.getElem?_setIfInBounds_self_of_lt hk]
      · refine .inr (.inr ⟨fun n => ?_, ?_⟩)
        · simp [hno n, hi, hj]
        · rw [Array.getElem?_setIfInBounds_ne (Ne.symm hj),
            Array.getElem?_setIfInBounds_ne (Ne.symm hi)]

section Scanned

variable {α : Type} {f g : ℕ → α} {l : List (Option Bracket)} {a : Array α} {i j k : ℕ}

theorem getElem?_tieAll_left (hk : i < a.size) (h : (i, j) ∈ (scan l 0 []).pairs) :
    (tieAll f g (scan l 0 []).pairs a)[i]? = some (f j) := by
  have paired := paired_of_mem_pairs h
  rcases getElem?_tieAll f g (scan l 0 []).pairs a hk with ⟨n, hn, he⟩ | ⟨n, hn, he⟩ | ⟨hno, -⟩
  · rw [he, paired.right_unique (paired_of_mem_pairs hn)]
  · have := (paired_of_mem_pairs hn).getElem?_right
    rw [paired.getElem?_left] at this
    cases this
  · exact absurd h (hno j).1

theorem getElem?_tieAll_right (hk : j < a.size) (h : (i, j) ∈ (scan l 0 []).pairs) :
    (tieAll f g (scan l 0 []).pairs a)[j]? = some (g i) := by
  have paired := paired_of_mem_pairs h
  rcases getElem?_tieAll f g (scan l 0 []).pairs a hk with ⟨n, hn, he⟩ | ⟨n, hn, he⟩ | ⟨hno, -⟩
  · have := (paired_of_mem_pairs hn).getElem?_left
    rw [paired.getElem?_right] at this
    cases this
  · rw [he, paired.left_unique (paired_of_mem_pairs hn)]
  · exact absurd h (hno i).2

theorem getElem?_tieAll_none (hk : k < a.size) (h : l[k]? = some none) :
    (tieAll f g (scan l 0 []).pairs a)[k]? = a[k]? := by
  rcases getElem?_tieAll f g (scan l 0 []).pairs a hk with ⟨n, hn, he⟩ | ⟨n, hn, he⟩ | ⟨-, he⟩
  · have := (paired_of_mem_pairs hn).getElem?_left
    rw [h] at this
    cases this
  · have := (paired_of_mem_pairs hn).getElem?_right
    rw [h] at this
    cases this
  · exact he

end Scanned

/-- The result of a scan, unless it failed. -/
def Pairing.orFault {α : Type} (p : Pairing) (x : α) : Except Fault α :=
  match p.fault with
  | none => .ok x
  | some f => .error f

theorem Pairing.orFault_eq_ok_iff {α : Type} {p : Pairing} {x y : α} :
    p.orFault x = .ok y ↔ p.fault = none ∧ x = y := by
  unfold orFault
  split <;> simp_all

theorem Pairing.orFault_eq_error_iff {α : Type} {p : Pairing} {x : α} {f : Fault} :
    p.orFault x = .error f ↔ p.fault = some f := by
  unfold orFault
  split <;> simp_all

end Brackets

open Brackets

namespace LoopTable

theorem matchFrom_eq (rest : List Symbol) (i : ℕ) (starts : List ℕ) (t : LoopTable) :
    matchFrom rest i starts t =
      (scan (rest.map Symbol.bracket?) i starts).orFault
        ⟨tieAll some some (scan (rest.map Symbol.bracket?) i starts).pairs t.partners⟩ := by
  fun_induction matchFrom rest i starts t with
  | case1 => rfl
  | case2 => rfl
  | case3 rest i starts t ih => rw [ih]; rfl
  | case4 => rfl
  | case5 rest i start starts t ih => rw [ih]; rfl
  | case6 x rest i starts t hstart hend hend' ih =>
    have hx : x.bracket? = none := by
      match x with
      | .remark _ => rfl
      | .command .loopStart => exact absurd rfl hstart
      | .command .loopEnd =>
        cases starts with
        | nil => exact absurd rfl (hend rfl)
        | cons start starts => exact absurd rfl (hend' start starts rfl)
      | .command .left | .command .right | .command .increment | .command .decrement
      | .command .output | .command .input => rfl
    rw [ih, List.map_cons, hx, scan]

variable {source : List Symbol} {loops : LoopTable}

theorem exists_ofSource_iff :
    (∃ loops, ofSource source = .ok loops) ↔ Balanced (source.map Symbol.bracket?) := by
  simp only [ofSource, matchFrom_eq, Pairing.orFault_eq_ok_iff, exists_and_left, exists_eq',
    and_true]
  exact fault_scan_eq_none_iff_balanced

theorem ofSource_eq_error_iff {f : Fault} :
    ofSource source = .error f ↔ (scan (source.map Symbol.bracket?) 0 []).fault = some f := by
  rw [ofSource, matchFrom_eq, Pairing.orFault_eq_error_iff]

theorem partner?_of_paired (h : ofSource source = .ok loops) {i j : ℕ}
    (paired : Paired (source.map Symbol.bracket?) i j) :
    loops.partner? i = some j ∧ loops.partner? j = some i := by
  have bal := exists_ofSource_iff.mp ⟨loops, h⟩
  rw [ofSource, matchFrom_eq, Pairing.orFault_eq_ok_iff] at h
  obtain ⟨-, rfl⟩ := h
  have hsize : (blank source.length).partners.size = (source.map Symbol.bracket?).length := by
    simp [blank]
  have hi := (List.getElem?_eq_some_iff.mp paired.getElem?_left).1
  have hj := (List.getElem?_eq_some_iff.mp paired.getElem?_right).1
  unfold partner?
  rw [getElem?_tieAll_left (hsize ▸ hi) ((mem_pairs_scan_iff bal).mpr paired),
    getElem?_tieAll_right (hsize ▸ hj) ((mem_pairs_scan_iff bal).mpr paired)]
  exact ⟨rfl, rfl⟩

end LoopTable

namespace Linked

theorem scan_eq (rest : List Op) (i : ℕ) (starts : List ℕ) (ops : Array Op) :
    Linked.scan rest i starts ops =
      ⟨tieAll (fun j => ⟨.openLoop, some j⟩) (fun i => ⟨.closeLoop, some i⟩)
        (Brackets.scan (rest.map Op.bracket?) i starts).pairs ops,
        (Brackets.scan (rest.map Op.bracket?) i starts).fault⟩ := by
  fun_induction Linked.scan rest i starts ops with
  | case1 => rfl
  | case2 => rfl
  | case3 op rest i starts ops htag ih => simp [ih, Op.bracket?, htag, Brackets.scan]
  | case4 op rest i ops htag => simp [Op.bracket?, htag, Brackets.scan, tieAll]
  | case5 op rest i ops start starts htag ih =>
    simp [ih, Op.bracket?, htag, Brackets.scan, tieAll]
  | case6 op rest i starts ops hstart hend hend' ih =>
    have hop : op.bracket? = none := by
      unfold Op.bracket?
      split <;> rename_i h
      · exact absurd h hstart
      · cases starts with
        | nil => exact absurd rfl (hend h)
        | cons start starts => exact absurd rfl (hend' start starts h)
      · rfl
    simp [ih, hop, Brackets.scan]

end Linked

section Link

variable {ops : List Op} {code : Array Op}

theorem exists_program_link_iff :
    (∃ code, (link ops).program = .ok code) ↔ Balanced (ops.map Op.bracket?) := by
  rw [link, Linked.scan_eq, ← fault_scan_eq_none_iff_balanced]
  unfold Linked.program
  split <;> simp_all

theorem program_link_eq_error_iff {f : Fault} :
    (link ops).program = .error f ↔ (scan (ops.map Op.bracket?) 0 []).fault = some f := by
  rw [link, Linked.scan_eq]
  unfold Linked.program
  split <;> simp_all

theorem program_link_eq (h : (link ops).program = .ok code) :
    code = tieAll (fun j => ⟨.openLoop, some j⟩) (fun i => ⟨.closeLoop, some i⟩)
      (scan (ops.map Op.bracket?) 0 []).pairs ops.toArray := by
  rw [link, Linked.scan_eq] at h
  unfold Linked.program at h
  split at h
  · exact (Except.ok.inj h).symm
  · cases h

theorem size_program_link (h : (link ops).program = .ok code) : code.size = ops.length := by
  rw [program_link_eq h, size_tieAll, List.size_toArray]

theorem getElem?_program_link_of_paired (h : (link ops).program = .ok code) {i j : ℕ}
    (paired : Paired (ops.map Op.bracket?) i j) :
    code[i]? = some ⟨.openLoop, some j⟩ ∧ code[j]? = some ⟨.closeLoop, some i⟩ := by
  have hmem := (mem_pairs_scan_iff (exists_program_link_iff.mp ⟨code, h⟩)).mpr paired
  have hi := (List.getElem?_eq_some_iff.mp paired.getElem?_left).1
  have hj := (List.getElem?_eq_some_iff.mp paired.getElem?_right).1
  rw [program_link_eq h, getElem?_tieAll_left (by simpa using hi) hmem,
    getElem?_tieAll_right (by simpa using hj) hmem]
  exact ⟨rfl, rfl⟩

theorem getElem?_program_link_of_none (h : (link ops).program = .ok code) {k : ℕ} {op : Op}
    (hk : ops[k]? = some op) (hop : op.bracket? = none) : code[k]? = some op := by
  have hlt := (List.getElem?_eq_some_iff.mp hk).1
  rw [program_link_eq h, getElem?_tieAll_none (by simpa using hlt) (by simp [hk, hop])]
  simpa using hk

end Link
end TapeMachine
