import TapeMachine.Proofs.Peephole.Layout

/-!
# Reading listings

A listing can be read again. Neither tags nor numbers hold a blank or a line break, so the lines of
a listing are told apart by the line breaks and the columns of a line by the blanks, whatever room
the index and the payload take. Operations with different listings are therefore different.

There is a listing only if every payload can be written. The payloads of a compiled program are bytes
or no larger than the number of its commands, so the text that is printed of it is its listing.
-/
namespace TapeMachine

namespace Tag

variable {t : Tag}

theorem ofName_name (h : t ∈ meaningful) : ofName t.name = t := by
  revert t
  decide

theorem blank_not_mem_name (h : t ∈ meaningful) : ' ' ∉ t.name.toList := by
  revert t
  decide

theorem lineBreak_not_mem_name (h : t ∈ meaningful) : '\n' ∉ t.name.toList := by
  revert t
  decide

end Tag

namespace Listing

/-- The number that digits stand for, behind a minus or not. -/
def readNumber : List Char → ℤ
  | '-' :: digits => -(Nat.ofDigitChars 10 digits 0 : ℤ)
  | digits => Nat.ofDigitChars 10 digits 0

/-- The operation of a tag, behind which a blank and a payload may follow. -/
def readOp (text : List Char) : Op :=
  ⟨.ofName (String.ofList (text.takeWhile (· != ' '))),
    match text.dropWhile (· != ' ') with
    | [] => none
    | _ :: number => some (readNumber number)⟩

/-- The operation on a line, the index of which is passed over. -/
def readLine (line : List Char) : Op :=
  readOp (((line.dropWhile (· == ' ')).dropWhile Char.isDigit).drop 2)

/-- The operations of a listing; a line on which nothing stands lists none. -/
def read (text : String) : List Op :=
  ((text.toList.splitOn '\n').filter (· ≠ [])).map readLine

/-- What stands behind the tag of an operation. -/
def payload : Option ℤ → List Char
  | none => []
  | some n => ' ' :: (toString n).toList

variable {ops : List Op} {op : Op} {c : Char}

theorem toList_line (i : ℕ) (op : Op) :
    (line i op).toList = List.replicate (5 - (toString i).length) ' ' ++
      (Nat.toDigits 10 i ++ ' ' :: ' ' :: (op.tag.name.toList ++ payload op.arg)) := by
  unfold line alignRight
  cases op.arg <;> simp [payload]

theorem not_mem_toDigits (h : c.isDigit = false) (n : ℕ) : c ∉ Nat.toDigits 10 n := by
  intro hc
  rw [Nat.isDigit_of_mem_toDigits (by decide) (by decide) hc] at h
  cases h

theorem toList_repr_int (n : ℤ) :
    n.repr.toList =
      if 0 ≤ n then Nat.toDigits 10 n.toNat else '-' :: Nat.toDigits 10 (-n).toNat := by
  rw [Int.repr_eq_if]
  split_ifs <;> simp

theorem readNumber_repr (n : ℤ) : readNumber n.repr.toList = n := by
  rw [toList_repr_int]
  split_ifs with h
  · unfold readNumber
    split
    · rename_i digits heq
      exact absurd (by simp [heq]) (not_mem_toDigits (c := '-') (by decide) n.toNat)
    · rw [Nat.ofDigitChars_ten_toDigits, Int.toNat_of_nonneg h]
  · rw [readNumber, Nat.ofDigitChars_ten_toDigits]
    omega

theorem readOp_append (name : op.tag ∈ Tag.meaningful) :
    readOp (op.tag.name.toList ++ payload op.arg) = op := by
  have hname : ∀ c ∈ op.tag.name.toList, (c != ' ') = true := fun c hc =>
    bne_iff_ne.mpr (ne_of_mem_of_not_mem hc (Tag.blank_not_mem_name name))
  obtain ⟨tag, arg⟩ := op
  unfold readOp
  rw [List.takeWhile_append_of_pos hname, List.dropWhile_append_of_pos hname]
  cases arg with
  | none => simp [payload, Tag.ofName_name name]
  | some n => simp [payload, Tag.ofName_name name, readNumber_repr]

theorem dropWhile_blank_toDigits (i : ℕ) (rest : List Char) :
    (Nat.toDigits 10 i ++ rest).dropWhile (· == ' ') = Nat.toDigits 10 i ++ rest := by
  obtain ⟨d, ds, hd⟩ := List.exists_cons_of_ne_nil (Nat.toDigits_ne_nil (n := i) (b := 10))
  have hfirst : d ≠ ' ' := by
    rintro rfl
    exact not_mem_toDigits (c := ' ') (by decide) i (by simp [hd])
  rw [hd, List.cons_append]
  simp [hfirst]

theorem dropWhile_isDigit_toDigits (i : ℕ) (rest : List Char) :
    (Nat.toDigits 10 i ++ ' ' :: rest).dropWhile Char.isDigit = ' ' :: rest := by
  have hindex : ∀ c ∈ Nat.toDigits 10 i, c.isDigit = true := fun c hc =>
    Nat.isDigit_of_mem_toDigits (by decide) (by decide) hc
  rw [List.dropWhile_append_of_pos hindex, List.dropWhile_cons_of_neg (by decide)]

theorem readLine_line (i : ℕ) (name : op.tag ∈ Tag.meaningful) :
    readLine (line i op).toList = op := by
  rw [readLine, toList_line, List.dropWhile_append_of_pos (by simp), dropWhile_blank_toDigits,
    dropWhile_isDigit_toDigits]
  exact readOp_append name

theorem lineBreak_not_mem_payload (arg : Option ℤ) : '\n' ∉ payload arg := by
  cases arg with
  | none => simp [payload]
  | some n =>
    have hdigits (k : ℕ) : '\n' ∉ Nat.toDigits 10 k := not_mem_toDigits (by decide) k
    rw [payload, Int.toString_eq_repr, toList_repr_int]
    split_ifs <;> simp [hdigits]

theorem lineBreak_not_mem_line (i : ℕ) (name : op.tag ∈ Tag.meaningful) :
    '\n' ∉ (line i op).toList := by
  rw [toList_line]
  simp [not_mem_toDigits, lineBreak_not_mem_payload, Tag.lineBreak_not_mem_name name]

theorem toList_line_ne_nil (i : ℕ) (op : Op) : (line i op).toList ≠ [] := by
  simp [toList_line]

theorem exists_of_mem_lines {text : String} (h : text ∈ lines ops) :
    ∃ i, ∃ op ∈ ops, text = line i op := by
  obtain ⟨i, hi, rfl⟩ := List.mem_mapIdx.mp h
  exact ⟨i, ops[i], List.getElem_mem hi, rfl⟩

/-- The lines of a listing are told apart by the line breaks. -/
theorem splitOn_text (names : ∀ op ∈ ops, op.tag ∈ Tag.meaningful) (ne : ops ≠ []) :
    (text ops).toList.splitOn '\n' = (lines ops).map String.toList := by
  have hbreak : ∀ l ∈ (lines ops).map String.toList, '\n' ∉ l := by
    intro l hl
    obtain ⟨text, htext, rfl⟩ := List.mem_map.mp hl
    obtain ⟨i, op, hop, rfl⟩ := exists_of_mem_lines htext
    exact lineBreak_not_mem_line i (names op hop)
  have hne : (lines ops).map String.toList ≠ [] := by simpa [lines] using ne
  rw [text, String.toList_intercalate]
  exact List.splitOn_intercalate '\n' hbreak hne

theorem filter_lines (ops : List Op) :
    ((lines ops).map String.toList).filter (· ≠ []) = (lines ops).map String.toList := by
  refine List.filter_eq_self.mpr fun l hl => ?_
  obtain ⟨text, htext, rfl⟩ := List.mem_map.mp hl
  obtain ⟨i, op, -, rfl⟩ := exists_of_mem_lines htext
  simpa using toList_line_ne_nil i op

theorem map_readLine_lines (names : ∀ op ∈ ops, op.tag ∈ Tag.meaningful) :
    ((lines ops).map String.toList).map readLine = ops := by
  apply List.ext_getElem
  · simp
  · intro i _ hi
    simp [lines, readLine_line i (names ops[i] (List.getElem_mem hi))]

theorem read_text (names : ∀ op ∈ ops, op.tag ∈ Tag.meaningful) : read (text ops) = ops := by
  by_cases ne : ops = []
  · subst ne
    rfl
  · rw [read, splitOn_text names ne, filter_lines, map_readLine_lines names]

end Listing

section Writable

variable {ops : List Op} {text : String}

theorem listing_eq_ok_iff :
    listing ops = .ok text ↔ (∀ op ∈ ops, op.isWritable) ∧ Listing.text ops = text := by
  rw [listing, ← List.all_eq_true]
  split_ifs with h <;> simp [h]

theorem listing_eq_error_iff {f : Fault} :
    listing ops = .error f ↔ (∃ op ∈ ops, ¬ op.isWritable) ∧ f = .numberTooLong := by
  have hall : (∃ op ∈ ops, ¬ op.isWritable) ↔ ¬ ops.all Op.isWritable := by simp
  rw [listing, hall]
  split_ifs with h <;> simp [h, eq_comm]

/-- What a listing is read as has that listing. -/
theorem read_of_listing (names : ∀ op ∈ ops, op.tag ∈ Tag.meaningful)
    (h : listing ops = .ok text) : Listing.read text = ops := by
  rw [← (listing_eq_ok_iff.mp h).2, Listing.read_text names]

end Writable

theorem Word.natAbs_net_le (w : Word) : (net w).natAbs ≤ w.length := by
  induction w with
  | nil => simp
  | cons c w ih =>
    have hc : c.shift.natAbs ≤ 1 := by cases c <;> decide
    rw [net_cons, List.length_cons]
    omega

namespace Stands

variable {op : Op} {w : Word} {n : ℤ}

theorem ne_nil (h : Stands op w) : w ≠ [] := by
  cases h with
  | move h ne => exact h.ne_nil ne
  | _ => exact List.cons_ne_nil _ _

/-- A payload is a byte, or no larger than the number of commands that it stands for. -/
theorem natAbs_le (h : Stands op w) (hn : op.arg = some n) : n.natAbs ≤ w.length + 128 := by
  cases h with
  | move h _ =>
    obtain rfl := Option.some.inj hn
    have hnet := Word.natAbs_net_le w
    rw [h.net] at hnet
    omega
  | add _ _ byte _ | set _ _ byte =>
    obtain rfl := Option.some.inj hn
    have := byte.1
    have := byte.2
    omega
  | openLoop _ | closeLoop _ =>
    obtain rfl := Option.some.inj hn
    exact Nat.zero_le _
  | print _ | read _ => cases hn
  | @seek b u _ hb _ _ =>
    obtain rfl := Option.some.inj hn
    have hnet := Word.natAbs_net_le b
    rw [hb.net] at hnet
    simp only [List.length_cons, List.length_append]
    omega

end Stands

namespace Account

variable {a : Account} {code : Array Op} {op : Op} {n : ℤ} {k : ℕ}

theorem length_word_le {p : Piece} (hp : p ∈ a.pieces) : p.word.length ≤ a.words.length := by
  obtain ⟨l, r, hlr⟩ := List.append_of_mem hp
  simp only [words, hlr, List.flatMap_append, List.flatMap_cons, List.length_append]
  omega

/-- There is a command for every piece. -/
theorem Sound.length_pieces_le (hs : a.Sound) : a.pieces.length ≤ a.words.length := by
  have hone : ∀ n ∈ a.pieces.map fun p => p.word.length, 1 ≤ n := by
    intro n hn
    obtain ⟨p, hp, rfl⟩ := List.mem_map.mp hn
    exact List.length_pos_of_ne_nil (hs.stands p hp).ne_nil
  have hsum := List.length_le_sum_of_one_le _ hone
  rw [List.length_map] at hsum
  rw [words, List.length_append, List.length_flatMap]
  omega

theorem HasProgram.natAbs_le (h : a.HasProgram code) (hs : a.Sound) (hop : code[k]? = some op)
    (hn : op.arg = some n) : n.natAbs ≤ a.words.length + 128 := by
  have hlen := hs.length_pieces_le
  cases h.origin hop with
  | @piece l r p hp _ =>
    have hmem : p ∈ a.pieces := by simp [hp]
    exact ((hs.stands p hmem).natAbs_le hn).trans (Nat.add_le_add_right (length_word_le hmem) _)
  | opening loop | closing loop =>
    obtain rfl := Option.some.inj hn
    rw [loop.pieces] at hlen
    simp only [List.length_append, List.length_cons] at hlen ⊢
    omega
  | stop => cases hn

end Account

/-- What is printed of the program of a source is its listing, unless the number of the commands can
hardly be written itself. -/
theorem listing_compile {source : List Symbol} {code : Array Op} (h : compile source = .ok code)
    (short : (commands source).length + 128 < Nat.pow 10 Text.digitLimit) :
    listing code.toList = .ok (Listing.text code.toList) := by
  refine listing_eq_ok_iff.mpr ⟨fun op hop => ?_, rfl⟩
  obtain ⟨k, hk⟩ := List.mem_iff_getElem?.mp hop
  rw [Array.getElem?_toList] at hk
  obtain ⟨tag, arg⟩ := op
  cases arg with
  | none => rfl
  | some n =>
    have hle := (compile_eq_ok_iff.mp h).natAbs_le (Account.sound_ofCommands _) hk rfl
    rw [Account.words_ofCommands] at hle
    simp only [Op.isWritable, Option.all_some, Text.isWritable, decide_eq_true_eq]
    exact Nat.lt_of_le_of_lt hle short

/-- A program is listed if all its payloads can be written, and not otherwise. A listing loses
nothing: all the operations can be read from it, and other operations have another listing. -/
theorem listing_outcome {a b : List Op} (ha : ∀ op ∈ a, op.tag ∈ Tag.meaningful)
    (hb : ∀ op ∈ b, op.tag ∈ Tag.meaningful) :
    ((∀ op ∈ a, op.isWritable) → ∃ text, listing a = .ok text ∧ Listing.read text = a) ∧
      ((∃ op ∈ a, ¬ op.isWritable) → listing a = .error .numberTooLong) ∧
      ∀ text, listing a = .ok text → listing b = .ok text → a = b := by
  refine ⟨fun h => ?_, fun h => listing_eq_error_iff.mpr ⟨h, rfl⟩, fun text hta htb => ?_⟩
  · exact ⟨_, listing_eq_ok_iff.mpr ⟨h, rfl⟩, Listing.read_text ha⟩
  · rw [← read_of_listing ha hta, read_of_listing hb htb]

/-- A payload of zero is not a missing one. The program of `[-]+.` is listed, and its listing is read
as this program. -/
theorem listing_ne_of_missing_payload :
    listing [⟨.move, some (-12)⟩, ⟨.set, none⟩] ≠
      listing [⟨.move, some (-12)⟩, ⟨.set, some 0⟩] ∧
    ∃ code text, compile (symbols "[-]+.") = .ok code ∧ listing code.toList = .ok text ∧
      Listing.read text = code.toList := by
  constructor
  · intro heq
    have h := listing_outcome
      (a := [⟨.move, some (-12)⟩, ⟨.set, none⟩]) (b := [⟨.move, some (-12)⟩, ⟨.set, some 0⟩])
      (by decide) (by decide)
    obtain ⟨text, htext, -⟩ := h.1 (by decide +kernel)
    exact absurd (h.2.2 text htext (heq ▸ htext)) (by decide)
  · have hcode : compile (symbols "[-]+.") =
        .ok #[⟨.set, some 1⟩, ⟨.print, none⟩, ⟨.stop, none⟩] := by decide
    have hlisting := listing_compile hcode (by decide +kernel)
    obtain ⟨text, htext, hread⟩ :=
      (listing_outcome (b := []) (by decide) (by decide)).1 (listing_eq_ok_iff.mp hlisting).1
    exact ⟨_, text, hcode, htext, hread⟩

/-- The distance has 4301 digits. -/
def longMove : List Op := [⟨.move, some (10 ^ 4300 : ℕ)⟩]

/-- Nothing can be read back from a program that is not listed. -/
theorem longMove_not_listed :
    (∀ op ∈ longMove, op.tag ∈ Tag.meaningful) ∧ listing longMove = .error .numberTooLong ∧
      ¬ ∃ text, listing longMove = .ok text ∧ Listing.read text = longMove := by
  have herror : listing longMove = .error .numberTooLong := by decide +kernel
  refine ⟨by decide +kernel, herror, ?_⟩
  rintro ⟨text, htext, -⟩
  cases herror.symm.trans htext

end TapeMachine
