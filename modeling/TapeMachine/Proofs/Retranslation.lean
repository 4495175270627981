import TapeMachine.Proofs.SharedChannel

/-!
# Repeated translation

A successful translation leaves nothing of what a backend held before. A refused one leaves a backend
that compiles as it was. The direct backend has exchanged its source by then: it goes on with the
refused source and the loop table of the last one that was taken. So whatever the history was, only
that last source and the newest one can be told from a backend.
-/
namespace TapeMachine

/-- An engine of the same kind that has translated nothing. -/
def Engine.fresh : Engine → Engine
  | plain => plain
  | compiled _ => compiled none
  | direct _ _ => direct none none

namespace Backend

variable {b c kept : Backend} {source last : List Symbol} {history : List (List Symbol)} {f : Fault}

/-- The backend before any translation. -/
def fresh (b : Backend) : Backend := { b with engine := b.engine.fresh }

/-- The backend compiles. -/
def Compiles (b : Backend) : Prop := ∃ code, b.engine = .compiled code

/-- What a translation that is refused makes of the backend. -/
def afterRefusal (b : Backend) (source : List Symbol) : Backend :=
  match b.engine with
  | .direct _ loops => { b with engine := .direct (some source.toArray) loops }
  | _ => b

/-- Translates one source after another. What comes out is the backend, and the last of the sources
that was not refused. -/
def translateAll (b : Backend) (history : List (List Symbol)) : Backend × Option (List Symbol) :=
  history.foldl (fun (kept, last) source =>
    ((kept.translate source).backend,
      if (kept.translate source).fault.isNone then some source else last)) (b, none)

theorem translateAll_concat (b : Backend) (history : List (List Symbol)) (source : List Symbol) :
    b.translateAll (history ++ [source]) =
      (((b.translateAll history).1.translate source).backend,
        if ((b.translateAll history).1.translate source).fault.isNone then some source
        else (b.translateAll history).2) := by
  simp [translateAll, List.foldl_append]

theorem fresh_fresh (b : Backend) : b.fresh.fresh = b.fresh := by
  obtain ⟨name, size, engine⟩ := b
  cases engine <;> rfl

theorem fresh_afterRefusal (b : Backend) (source : List Symbol) :
    (b.afterRefusal source).fresh = b.fresh := by
  obtain ⟨name, size, engine⟩ := b
  cases engine <;> rfl

theorem afterRefusal_afterRefusal (b : Backend) (newest source : List Symbol) :
    (b.afterRefusal newest).afterRefusal source = b.afterRefusal source := by
  obtain ⟨name, size, engine⟩ := b
  cases engine <;> rfl

/-- Whether a source is taken, and what is then held, depends on the kind of backend only. -/
theorem translate_cases (b : Backend) (source : List Symbol) :
    (∃ held : Backend, held.fresh = b.fresh ∧ held.afterRefusal source = held ∧
      ∀ c : Backend, c.fresh = b.fresh →
        (c.translate source).fault = none ∧ (c.translate source).backend = held) ∨
    ∃ f, ∀ c : Backend, c.fresh = b.fresh →
      (c.translate source).fault = some f ∧ (c.translate source).backend = c.afterRefusal source := by
  obtain ⟨name, size, engine⟩ := b
  cases engine with
  | plain =>
    refine .inr ⟨.notSupported, ?_⟩
    rintro ⟨name', size', _ | _ | _⟩ ⟨⟩
    exact ⟨rfl, rfl⟩
  | compiled code =>
    cases hcompile : compile source with
    | error f =>
      refine .inr ⟨f, ?_⟩
      rintro ⟨name', size', _ | _ | _⟩ ⟨⟩
      simp [translate, hcompile, afterRefusal]
    | ok code =>
      refine .inl ⟨⟨name, size, .compiled (some code)⟩, rfl, rfl, ?_⟩
      rintro ⟨name', size', _ | _ | _⟩ ⟨⟩
      simp [translate, hcompile]
  | direct code loops =>
    cases hloops : LoopTable.ofSource source with
    | error f =>
      refine .inr ⟨f, ?_⟩
      rintro ⟨name', size', _ | _ | _⟩ ⟨⟩
      simp [translate, hloops, afterRefusal]
    | ok loops =>
      refine .inl ⟨⟨name, size, .direct (some source.toArray) (some loops)⟩, rfl, rfl, ?_⟩
      rintro ⟨name', size', _ | _ | _⟩ ⟨⟩
      simp [translate, hloops]

/-- A translation does not change what kind of backend it is. -/
theorem fresh_translate (b : Backend) (source : List Symbol) :
    (b.translate source).backend.fresh = b.fresh := by
  rcases b.translate_cases source with ⟨held, hkind, -, h⟩ | ⟨f, h⟩
  · rw [(h b rfl).2, hkind]
  · rw [(h b rfl).2, fresh_afterRefusal]

theorem backend_translate_of_refused (refused : (b.translate source).fault = some f) :
    (b.translate source).backend = b.afterRefusal source := by
  rcases b.translate_cases source with ⟨held, -, -, h⟩ | ⟨g, h⟩
  · cases (h b rfl).1.symm.trans refused
  · exact (h b rfl).2

theorem fresh_translateAll (b : Backend) (history : List (List Symbol)) :
    (b.translateAll history).1.fresh = b.fresh := by
  induction history using List.reverseRecOn with
  | nil => rfl
  | append_singleton history source ih => rw [translateAll_concat, fresh_translate, ih]

/-- After a history of translations a backend is what it would be if it had taken the last source
that was not refused, and then refused the newest one. -/
theorem eq_afterRefusal_of_translateAll (h : b.translateAll history = (kept, some last)) :
    ∃ newest, history.getLast? = some newest ∧ (b.fresh.translate last).fault = none ∧
      kept = (b.fresh.translate last).backend.afterRefusal newest := by
  induction history using List.reverseRecOn generalizing kept with
  | nil => cases h
  | append_singleton history source ih =>
    rw [translateAll_concat] at h
    have hkind := fresh_translateAll b history
    generalize b.translateAll history = before at h hkind ih
    obtain ⟨before, earlier⟩ := before
    obtain ⟨rfl, hlast⟩ := Prod.mk.inj h
    refine ⟨source, List.getLast?_concat, ?_⟩
    rcases b.translate_cases source with ⟨held, -, hheld, htaken⟩ | ⟨g, hrefused⟩
    · obtain ⟨hfault, hbackend⟩ := htaken before hkind
      obtain rfl : source = last := by simpa [hfault] using hlast
      obtain ⟨hfault', hbackend'⟩ := htaken b.fresh b.fresh_fresh
      rw [hbackend, hbackend', hheld]
      exact ⟨hfault', rfl⟩
    · obtain ⟨hfault, hbackend⟩ := hrefused before hkind
      obtain rfl : earlier = some last := by simpa [hfault] using hlast
      obtain ⟨newest, -, htaken, rfl⟩ := ih rfl
      rw [hbackend, afterRefusal_afterRefusal]
      exact ⟨htaken, rfl⟩

/-- Runs of the two backends on one channel, whatever the channel, have the same reports. -/
def SameRuns (b c : Backend) : Prop := ∀ a r, b.Reports a r ↔ c.Reports a r

/-- Only fresh buffers matter. -/
theorem sameRuns_iff :
    b.SameRuns c ↔ ∀ input r, b.Reports (.ofInput input) r ↔ c.Reports (.ofInput input) r := by
  constructor
  · intro h input r
    exact h (.ofInput input) r
  · intro h a r
    rw [reports_iff, reports_iff]
    simp only [h]

theorem SameRuns.refl (b : Backend) : b.SameRuns b := fun _ _ => Iff.rfl

end Backend

/-- Run by the loop table of the last source, the other source ends as the last one does, on
whatever input. -/
def Direct.StandsIn (size : ℤ) (last source : List Symbol) : Prop :=
  ∀ loops, LoopTable.ofSource last = .ok loops → ∀ input r,
    (∃ limit, report limit source.toArray loops size (.ofInput input) = some r) ↔
      ∃ limit, report limit last.toArray loops size (.ofInput input) = some r

namespace Backend

variable {b : Backend} {source last : List Symbol}

theorem afterRefusal_of_compiles (h : b.Compiles) (source : List Symbol) :
    b.afterRefusal source = b := by
  obtain ⟨code, h⟩ := h
  simp [afterRefusal, h]

theorem Compiles.translate_fresh (h : b.Compiles) (source : List Symbol) :
    (b.fresh.translate source).backend.Compiles := by
  obtain ⟨name, size, engine⟩ := b
  obtain ⟨code, rfl : engine = .compiled code⟩ := h
  simp only [translate, fresh, Engine.fresh]
  cases compile source with
  | error g => exact ⟨none, rfl⟩
  | ok code => exact ⟨some code, rfl⟩

/-- A backend that has taken a source compiles, or it holds the source with its loop table. -/
theorem compiles_or_direct_of_taken (taken : (b.fresh.translate last).fault = none) :
    b.Compiles ∨ ¬b.Compiles ∧ ∃ loops, LoopTable.ofSource last = .ok loops ∧
      (b.fresh.translate last).backend =
        { b with engine := .direct (some last.toArray) (some loops) } := by
  obtain ⟨name, size, engine⟩ := b
  cases engine with
  | plain => cases taken
  | compiled code => exact .inl ⟨code, rfl⟩
  | direct code loops =>
    refine .inr ⟨fun h => ?_, ?_⟩
    · obtain ⟨code, h⟩ := h
      cases h
    · revert taken
      simp only [translate, fresh, Engine.fresh]
      cases LoopTable.ofSource last with
      | error g => simp
      | ok loops => simp

/-- What a refused source and a loop table that was kept do, told by the interpreter alone. -/
theorem sameRuns_direct_iff {loops : LoopTable} (hloops : LoopTable.ofSource last = .ok loops) :
    ({ b with engine := .direct (some source.toArray) (some loops) } : Backend).SameRuns
      { b with engine := .direct (some last.toArray) (some loops) } ↔
      Direct.StandsIn b.size.val last source := by
  rw [sameRuns_iff]
  constructor
  · intro h table htable
    obtain rfl : loops = table := Except.ok.inj (hloops.symm.trans htable)
    exact h
  · intro h
    exact h loops hloops

/-- A source stands in for another one if the two come to the same report. -/
theorem standsIn_of_reports {size : TapeSize}
    (h : ∀ loops, LoopTable.ofSource last = .ok loops → ∀ input, ∃ limit r,
      Direct.report limit source.toArray loops size.val (.ofInput input) = some r ∧
        Direct.report limit last.toArray loops size.val (.ofInput input) = some r) :
    Direct.StandsIn size.val last source := by
  intro loops hloops input r
  obtain ⟨limit, r', hsource, hlast⟩ := h loops hloops input
  -- a backend that holds a source with this table reports one thing only
  have hiff {code : Array Symbol} (hcode : Direct.report limit code loops size.val
      (.ofInput input) = some r') :
      (∃ n, Direct.report n code loops size.val (.ofInput input) = some r) ↔ r = r' := by
    let held : Backend := ⟨"", size, .direct (some code) (some loops)⟩
    refine ⟨fun hr => ?_, fun hr => ⟨limit, hr ▸ hcode⟩⟩
    exact Reports.unique (b := held) hr ⟨limit, hcode⟩
  rw [hiff hsource, hiff hlast]

end Backend

open Backend in
/-- A refused translation leaves the backend as it was exactly if the backend compiles, or the
translation before was refused for the same source. Its runs are those of a fresh backend that took
the last source exactly if it compiles, or the refused source stands in for that one. -/
theorem refused_translation_iff {b kept : Backend} {history : List (List Symbol)}
    {last source : List Symbol} {f : Fault}
    (taken : b.translateAll history = (kept, some last))
    (refused : (kept.translate source).fault = some f) :
    ((kept.translate source).backend = kept ↔ b.Compiles ∨ history.getLast? = some source) ∧
      ((kept.translate source).backend.SameRuns (b.fresh.translate last).backend ↔
        b.Compiles ∨ Direct.StandsIn b.size.val last source) := by
  obtain ⟨newest, hnewest, hfault, rfl⟩ := eq_afterRefusal_of_translateAll taken
  rw [backend_translate_of_refused refused, afterRefusal_afterRefusal, hnewest]
  rcases compiles_or_direct_of_taken hfault with hc | ⟨hc, loops, hloops, heq⟩
  · have hc' := hc.translate_fresh last
    simp [afterRefusal_of_compiles hc', hc, SameRuns.refl]
  · simp only [heq, hc, false_or]
    refine ⟨?_, sameRuns_direct_iff hloops⟩
    simp [afterRefusal, eq_comm]

/-- Refusing `[` does nothing to a compiling backend, and nothing more to one that is not compiling
and has refused it before. Refusing `+[` exchanges the source `++` that such a backend has taken, and
its runs are the same all the same: the cell is not zero at the bracket, so it is passed. -/
theorem refused_translation_keeps :
    (let b : Backend := ⟨"vm", ⟨1, by decide⟩, .compiled none⟩
      let kept := (b.translate (symbols "+.")).backend
      (kept.translate (symbols "[")).backend = kept ∧
        (kept.translate (symbols "[")).backend.SameRuns kept) ∧
    (let b : Backend := ⟨"naive", ⟨1, by decide⟩, .direct none none⟩
      let kept := (b.translateAll [symbols "+.", symbols "["]).1
      (kept.translate (symbols "[")).backend = kept) ∧
    let b : Backend := ⟨"naive", ⟨1, by decide⟩, .direct none none⟩
    let kept := (b.translate (symbols "++")).backend
    (kept.translate (symbols "+[")).backend ≠ kept ∧
      (kept.translate (symbols "+[")).backend.SameRuns kept := by
  refine ⟨?_, ?_, ?_⟩
  · intro b kept
    have h := @refused_translation_iff b kept [symbols "+."] (symbols "+.") (symbols "[")
      .missingClose (by decide) (by decide)
    have compiles : b.Compiles := ⟨none, rfl⟩
    exact ⟨h.1.mpr (.inl compiles), h.2.mpr (.inl compiles)⟩
  · intro b kept
    have h := @refused_translation_iff b kept [symbols "+.", symbols "["] (symbols "+.")
      (symbols "[") .missingClose (by decide) (by decide)
    exact h.1.mpr (.inr rfl)
  · intro b kept
    have h := @refused_translation_iff b kept [symbols "++"] (symbols "++") (symbols "+[")
      .missingClose (by decide) (by decide)
    have standsIn : Direct.StandsIn b.size.val (symbols "++") (symbols "+[") := by
      refine Backend.standsIn_of_reports fun loops hloops input => ?_
      have htable : LoopTable.ofSource (symbols "++") = .ok ⟨#[none, none]⟩ := by decide
      obtain rfl := Except.ok.inj (htable.symm.trans hloops)
      exact ⟨3, ⟨.halted, .ofInput input, [.interpreting 2 1]⟩, rfl, rfl⟩
    exact ⟨by decide, h.2.mpr (.inr standsIn)⟩

/-- The interpreter took `+.` and refused `[`: it has only the loop table of the first source left,
and a run fails at the bracket. -/
theorem refused_translation_changes_runs :
    let b : Backend := ⟨"naive", ⟨1, by decide⟩, .direct none none⟩
    let kept := (b.translate (symbols "+.")).backend
    let half := kept.translate (symbols "[")
    b.translateAll [symbols "+."] = (kept, some (symbols "+.")) ∧
      half.fault = some .missingClose ∧ half.backend ≠ kept ∧
      half.backend.Reports (.ofInput [])
        ⟨.failed (.noPartner 0), .ofInput [], [.interpreting 1 1]⟩ ∧
      (b.translate (symbols "+.")).backend.Reports (.ofInput [])
        ⟨.halted, .buffer [] #["\x01"], [.interpreting 2 1]⟩ ∧
      ¬half.backend.SameRuns (b.translate (symbols "+.")).backend := by
  intro b kept half
  have refused : half.backend.Reports (.ofInput [])
      ⟨.failed (.noPartner 0), .ofInput [], [.interpreting 1 1]⟩ := ⟨10, by decide⟩
  have taken : kept.Reports (.ofInput [])
      ⟨.halted, .buffer [] #["\x01"], [.interpreting 2 1]⟩ := ⟨10, by decide⟩
  refine ⟨by decide, by decide, by decide, refused, taken, fun h => ?_⟩
  cases ((h _ _).mp refused).unique taken

end TapeMachine
