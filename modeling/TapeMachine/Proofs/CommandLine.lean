import TapeMachine.Cli.Outcome
import TapeMachine.Proofs.Safety
import TapeMachine.Proofs.SharedChannel
import TapeMachine.Proofs.Verdict

/-!
# What a command line comes to

An invocation whose run ends prints what the run has written and how it ended, and its status is 0
if the run has halted and 1 if not. Whatever prevents the run is told in one line, with status 1.
There is one exception: two dashes attached to an option stand for no argument, and if it is the size
or the number of runs that is missing then, the invocation ends with a fault that nobody handles.
-/
namespace TapeMachine

/-- The text behind the output of a run that has ended. -/
def Ending.closing : Ending → String
  | halted => "\nDone\n"
  | failed f => "\nRuntime error " ++ f.message ++ "\n"

theorem Ending.closing_failed (f : Fault) :
    (failed f).closing = "\nRuntime error " ++ f.message ++ "\n" := rfl

def Ending.status : Ending → ℕ
  | halted => 0
  | failed _ => 1

/-- What a benchmark tells of runs that end like this. -/
def Ending.summary (runs : ℕ) (times : String) : Ending → String
  | halted => toString runs ++ " runs, " ++ times ++ "\n"
  | failed _ => ""

theorem Ending.status_le_one (e : Ending) : e.status ≤ 1 := by
  cases e <;> simp [status]

variable {source : List Symbol} {size : TapeSize} {input : List Char} {e : Ending} {output : String}
  {kind name : String} {engine : Engine} {f : Fault}

theorem Ending.Ordinary.isMachine {n : ℤ} (h : (Ending.failed f).Ordinary n) :
    f.isMachine = true := by
  cases h <;> rfl

/-- A source run on a buffer, by the backend with this name, ends like this and has written this. -/
inductive RunsTo (source : List Symbol) (size : TapeSize) (input : List Char) (e : Ending)
    (output : String) : String → Prop
  | vm {s : Compiled.State} (ends : Compiled.Ends source size input e s)
    (written : s.store.channel.output = output) : RunsTo source size input e output "vm"
  | naive {t : Direct.State} (ends : Direct.Ends source size input e t)
    (written : t.store.channel.output = output) : RunsTo source size input e output "naive"

theorem RunsTo.ordinary (h : RunsTo source size input e output kind) : e.Ordinary size.val := by
  cases h with
  | vm ends => exact ends.ordinary
  | naive ends => exact ends.ordinary

theorem Compiled.exists_report {code : Array Op} {n : ℤ} {channel : Channel} {limit : ℕ} {s : State}
    (room : Room.refusal? n = none) (h : run limit code n channel = some (e, s)) :
    ∃ r, report limit code n channel = some r ∧ r.ending = e ∧ r.channel = s.store.channel := by
  simp only [report, room, h]
  exact ⟨_, rfl, rfl, rfl⟩

theorem Direct.exists_report {code : Array Symbol} {loops : LoopTable} {n : ℤ} {channel : Channel}
    {limit : ℕ} {t : State} (room : Room.refusal? n = none)
    (h : run limit code loops n channel = some (e, t)) :
    ∃ r, report limit code loops n channel = some r ∧ r.ending = e ∧
      r.channel = t.store.channel := by
  simp only [report, room, h]
  exact ⟨_, rfl, rfl, rfl⟩

/-- Compilation fails for want of a bracket and for no other reason. -/
theorem isMachine_of_compile_eq_error (h : compile source = .error f) : f.isMachine = true := by
  rw [compile_eq_error_iff, Brackets.fault_scan_start] at h
  split_ifs at h <;> cases h <;> rfl

namespace Backend

theorem fault_translate_compiled {code : Option (Array Op)} :
    (translate ⟨name, size, .compiled code⟩ source).fault = some f ↔ compile source = .error f := by
  unfold translate
  cases compile source with
  | ok code => simp
  | error g => simp

/-- Both backends refuse what the compiler refuses. -/
theorem fault_translate_fresh (h : Engine.named? kind = some engine) :
    (translate ⟨name, size, engine⟩ (parsed source)).fault = some f ↔
      compile source = .error f := by
  unfold Engine.named? at h
  split at h
  · cases h
    rw [fault_translate_compiled, compile_congr (commands_parsed source)]
  · cases h
    rw [fault_translate_direct, LoopTable.ofSource_eq_error_iff, map_bracket?_parsed,
      compile_eq_error_iff]
  · cases h

theorem log_translate_of_fault {b : Backend} (h : (b.translate source).fault = some f) :
    (b.translate source).log = [] := by
  unfold translate at h ⊢
  split
  · rfl
  · split
    · rfl
    · simp_all
  · split <;> rfl

/-- What becomes of the run of a source is what the backend reports that has translated it. -/
theorem reports_of_runsTo (h : RunsTo source size input e output kind)
    (room : Room.refusal? size.val = none) (name : String) :
    ∃ engine, Engine.named? kind = some engine ∧
      (translate ⟨name, size, engine⟩ (parsed source)).fault = none ∧
      ∃ r, (translate ⟨name, size, engine⟩ (parsed source)).backend.Reports (.ofInput input) r ∧
        r.ending = e ∧ r.channel.output = output := by
  cases h with
  | @vm s ends written =>
    obtain ⟨code, limit, hcode, hrun⟩ := ends
    obtain ⟨r, hr, rfl, hchannel⟩ := Compiled.exists_report room hrun
    refine ⟨.compiled none, rfl, by simp [translate, hcode], r, ⟨limit, ?_⟩, rfl, ?_⟩
    · simp only [translate, hcode, run]
      exact hr
    · rw [hchannel, written]
  | @naive t ends written =>
    obtain ⟨loops, limit, hloops, hrun⟩ := ends
    obtain ⟨r, hr, rfl, hchannel⟩ := Direct.exists_report room hrun
    refine ⟨.direct none none, rfl, by simp [translate, hloops], r, ⟨limit, ?_⟩, rfl, ?_⟩
    · simp only [translate, hloops, run]
      exact hr
    · rw [hchannel, written]

/-- The same run on a console: all that it has written is printed. -/
theorem exists_report_console {b : Backend} {r : Report} (h : b.Reports (.ofInput input) r) :
    ∃ r', b.Reports (.console input "") r' ∧ r'.ending = r.ending ∧
      r'.channel.output = r.channel.output := by
  have hres : (Channel.console input "").Resumable r.channel := resumable_of_reports h
  refine ⟨_, reports_iff.mpr ⟨r, h, rfl⟩, rfl, ?_⟩
  rw [Report.exchange, hres.output_resume trivial]
  exact String.empty_append

/-- The same run without input or output. -/
theorem exists_report_null {b : Backend} {r : Report} (h : b.Reports (.ofInput []) r) :
    ∃ r', b.Reports .null r' ∧ r'.ending = r.ending ∧ r'.channel.output = "" := by
  refine ⟨_, reports_iff.mpr ⟨r, h, rfl⟩, rfl, ?_⟩
  change (Channel.null.resume r.channel).output = ""
  cases r.channel <;> rfl

end Backend

namespace Cli

/-- Repeated runs that are all alike end as the first one does. -/
theorem exists_repeatRun (r : Report) (runs : ℕ) (log : Array Event) :
    ∃ log', repeatRun (some r) (runs + 1) log = some (r.ending.fault?, log') := by
  cases hfault : r.ending.fault? with
  | some f =>
    refine ⟨log ++ r.log, ?_⟩
    simp [repeatRun, hfault]
  | none =>
    induction runs generalizing log with
    | zero =>
      refine ⟨log ++ r.log, ?_⟩
      simp [repeatRun, hfault]
    | succ runs ih =>
      obtain ⟨log', hlog'⟩ := ih (log ++ r.log)
      refine ⟨log', ?_⟩
      rw [repeatRun]
      simp [hfault, hlog']

namespace Invocation

variable {i : Invocation} {bytes : List UInt8} {content : Option (List UInt8)} {runs : ℤ}
  {times printed : String} {exit : Exit}

/-- The program comes to this end, whatever is noted on the way, and prints this in all. -/
def Answers (i : Invocation) (content : Option (List UInt8)) (input : List Char) (times : String)
    (exit : Exit) (printed : String) : Prop :=
  ∃ limit log, ∀ n ≥ limit, i.outcome n content input times = some ⟨exit, printed, log⟩

/-- The settings with which a program is run. -/
structure Runs (i : Invocation) (kind : String) (size : TapeSize) (runs : ℤ) : Prop where
  backend : i.options.backend = .text kind
  known : kind = "vm" ∨ kind = "naive"
  channel : i.options.channel = .text "console" ∨ i.options.channel = .text "null"
  size : i.options.size = some size
  bench : i.options.bench = some runs
  listing : i.options.listing = false

/-- What a run gets to read: nothing if its output is discarded. -/
def fed (i : Invocation) (runs : ℤ) (input : List Char) : List Char :=
  if i.options.channel = .text "console" ∧ runs ≤ 0 then input else []

/-- What is printed of a run before it is said how it ended. -/
def shown (i : Invocation) (runs : ℤ) (times output : String) (e : Ending) : String :=
  if 0 < runs then e.summary runs.toNat times
  else if i.options.channel = .text "console" then output else ""

theorem exists_conclude (i : Invocation) {n : ℤ} (h : e.Ordinary n) (printed : String)
    (log : List Event) :
    ∃ log', i.conclude e.fault? printed log = ⟨.status e.status, printed ++ e.closing, log'⟩ := by
  cases e with
  | halted => exact ⟨_, rfl⟩
  | failed f =>
    simp only [conclude, Ending.fault?, h.isMachine, if_true, Ending.status,
      Ending.closing_failed, ← String.append_assoc]
    exact ⟨_, rfl⟩

theorem plan_readable (h : '\x00' ∉ i.file.toList) (bytes : List UInt8) (input : List Char) :
    i.plan (some bytes) input = i.planFile bytes input := by
  simp [plan, h]

theorem plan_unreadable (h : '\x00' ∉ i.file.toList) :
    i.plan none input = i.stopWith 1 ("\nERROR: File not found: " ++ i.file ++ "\n\n") [] := by
  simp [plan, h]

theorem exists_engine (hkind : i.options.backend = .text kind)
    (hknown : kind = "vm" ∨ kind = "naive") :
    ∃ engine, i.options.backend.text?.bind Engine.named? = some engine ∧
      Engine.named? kind = some engine := by
  rw [hkind]
  rcases hknown with rfl | rfl
  · exact ⟨_, rfl, rfl⟩
  · exact ⟨_, rfl, rfl⟩

theorem exists_channel
    (h : i.options.channel = .text "console" ∨ i.options.channel = .text "null")
    (input : List Char) :
    ∃ channel, i.options.channel.text?.bind (Channel.named? input) = some channel := by
  rcases h with h | h
  · exact ⟨_, by rw [h]; rfl⟩
  · exact ⟨_, by rw [h]; rfl⟩

/-- The backend with the source of the file translated. -/
def translated (i : Invocation) (engine : Engine) (size : TapeSize) (bytes : List UInt8) :
    Translated :=
  Backend.translate ⟨baseName i.file, size, engine⟩ (parsed (sourceOfFile bytes))

theorem fault_translated_of_compiles
    (hengine : i.options.backend.text?.bind Engine.named? = some engine)
    (compiles : ∃ code, compile (sourceOfFile bytes) = .ok code) :
    (i.translated engine size bytes).fault = none := by
  obtain ⟨kind, -, hkind⟩ := Option.bind_eq_some_iff.mp hengine
  obtain ⟨code, hcode⟩ := compiles
  rw [Option.eq_none_iff_forall_ne_some]
  intro f hf
  rw [translated, Backend.fault_translate_fresh hkind, hcode] at hf
  cases hf

section Prepared

variable {channel : Channel} (hengine : i.options.backend.text?.bind Engine.named? = some engine)
  (hsize : i.options.size = some size)
  (hchannel : i.options.channel.text?.bind (Channel.named? input) = some channel)
include hengine hsize hchannel

theorem planFile_of_translated (h : (i.translated engine size bytes).fault = none) :
    i.planFile bytes input = i.planRun (i.translated engine size bytes).backend channel
      (i.translated engine size bytes).log := by
  rw [translated, parsed] at h ⊢
  simp only [planFile, hengine, hsize, hchannel, h]

theorem planFile_of_refused (refused : compile (sourceOfFile bytes) = .error f) :
    i.planFile bytes input = i.stopWith 1 ("Compilation error " ++ f.message ++ "\n") [] := by
  obtain ⟨kind, -, hkind⟩ := Option.bind_eq_some_iff.mp hengine
  have hfault : (i.translated engine size bytes).fault = some f :=
    (Backend.fault_translate_fresh hkind).mpr refused
  have hlog := Backend.log_translate_of_fault hfault
  have hmachine := isMachine_of_compile_eq_error refused
  rw [translated, parsed] at hfault
  rw [parsed] at hlog
  simp only [planFile, hengine, hsize, hchannel, hfault, hmachine, hlog, if_true]

end Prepared

/-- A compilation that fails is all that happens. -/
theorem outcome_of_refused (h : '\x00' ∉ i.file.toList) (hruns : i.Runs kind size runs)
    (refused : compile (sourceOfFile bytes) = .error f) (limit : ℕ) :
    i.outcome limit (some bytes) input times =
      some ⟨.status 1, "Compilation error " ++ f.message ++ "\n", []⟩ := by
  obtain ⟨engine, hengine, -⟩ := exists_engine hruns.backend hruns.known
  obtain ⟨channel, hchannel⟩ := exists_channel hruns.channel input
  rw [outcome, plan_readable h, planFile_of_refused hengine hruns.size hchannel refused]
  simp [stopWith, Plan.carryOut, noted]

/-- A run on a channel that leads to a report. -/
theorem answers_interpret {b : Backend} {channel : Channel} {r : Report} {log : List Event} {n : ℤ}
    (hplan : i.plan content input = .interpret b channel log) (hr : b.Reports channel r)
    (he : r.ending.Ordinary n) :
    i.Answers content input times (.status r.ending.status)
      (r.channel.output ++ r.ending.closing) := by
  obtain ⟨limit, hrun⟩ := hr
  obtain ⟨log', hconclude⟩ := i.exists_conclude he r.channel.output (log ++ r.log)
  refine ⟨limit, log', fun n hn => ?_⟩
  rw [outcome, hplan, Plan.carryOut, b.run_mono hrun hn]
  simp [hconclude]

theorem answers_benchmark {b : Backend} {r : Report} {log : List Event} {n : ℤ} {count : ℕ}
    (hplan : i.plan content input = .benchmark b (count + 1) log) (hr : b.Reports .null r)
    (he : r.ending.Ordinary n) :
    i.Answers content input times (.status r.ending.status)
      (r.ending.summary (count + 1) times ++ r.ending.closing) := by
  obtain ⟨limit, hrun⟩ := hr
  obtain ⟨log', hrepeat⟩ := exists_repeatRun r count log.toArray
  obtain ⟨log'', hconclude⟩ :=
    i.exists_conclude he (r.ending.summary (count + 1) times) log'.toList
  have hbench : i.concludeBenchmark (count + 1) r.ending.fault? times log'.toList =
      i.conclude r.ending.fault? (r.ending.summary (count + 1) times) log'.toList := by
    cases r.ending <;> rfl
  refine ⟨limit, log'', fun n hn => ?_⟩
  rw [outcome, hplan, Plan.carryOut, b.run_mono hrun hn, hrepeat]
  simp [hbench, hconclude]

/-- What is answered if the run of the program comes to an end. -/
theorem answers_of_runsTo (h : '\x00' ∉ i.file.toList) (hruns : i.Runs kind size runs)
    (room : Room.refusal? size.val = none)
    (ends : RunsTo (sourceOfFile bytes) size (i.fed runs input) e output kind) :
    i.Answers (some bytes) input times (.status e.status)
      (i.shown runs times output e ++ e.closing) := by
  obtain ⟨engine, hengine, hkind⟩ := exists_engine hruns.backend hruns.known
  obtain ⟨channel, hchannel⟩ := exists_channel hruns.channel input
  obtain ⟨engine', hkind', hfault, r, hr, rfl, rfl⟩ :=
    Backend.reports_of_runsTo ends room (baseName i.file)
  obtain rfl : engine' = engine := Option.some.inj (hkind'.symm.trans hkind)
  have hplan := planFile_of_translated hengine hruns.size hchannel hfault
  rw [← plan_readable h] at hplan
  simp only [planRun, hruns.listing, hruns.bench, Bool.false_eq_true, if_false] at hplan
  by_cases hpos : 0 < runs
  · obtain ⟨count, hcount⟩ : ∃ count, runs.toNat = count + 1 := ⟨runs.toNat - 1, by omega⟩
    rw [if_pos hpos, hcount] at hplan
    rw [fed, if_neg (by omega)] at hr
    obtain ⟨r', hr', hending, -⟩ := Backend.exists_report_null hr
    have hanswers : i.Answers (some bytes) input times _ _ :=
      answers_benchmark hplan hr' (hending ▸ ends.ordinary)
    rw [hending, ← hcount] at hanswers
    rw [shown, if_pos hpos]
    exact hanswers
  · rw [if_neg hpos] at hplan
    rw [shown, if_neg hpos]
    rcases hruns.channel with hconsole | hnull
    · rw [hconsole] at hchannel
      cases hchannel
      rw [fed, if_pos ⟨hconsole, by omega⟩] at hr
      obtain ⟨r', hr', hending, hout⟩ := Backend.exists_report_console hr
      have hanswers : i.Answers (some bytes) input times _ _ :=
        answers_interpret hplan hr' (hending ▸ ends.ordinary)
      rw [hending, hout] at hanswers
      rw [if_pos hconsole]
      exact hanswers
    · have hsilent : i.options.channel ≠ .text "console" := by
        rw [hnull]
        decide
      rw [hnull] at hchannel
      cases hchannel
      rw [fed, if_neg fun h => hsilent h.1] at hr
      obtain ⟨r', hr', hending, hout⟩ := Backend.exists_report_null hr
      have hanswers : i.Answers (some bytes) input times _ _ :=
        answers_interpret hplan hr' (hending ▸ ends.ordinary)
      rw [hending, hout] at hanswers
      rw [if_neg hsilent]
      exact hanswers

/-- The invocation needs a number that it was not given: the size of the tape, or, if it comes to
running the program, the number of runs. -/
def MissesNumber (i : Invocation) (content : Option (List UInt8)) : Prop :=
  ∃ bytes, content = some bytes ∧
    (∃ kind, i.options.backend = .text kind ∧ (kind = "vm" ∨ kind = "naive")) ∧
    (i.options.size = none ∨
      i.options.bench = none ∧ i.options.listing = false ∧
        (i.options.channel = .text "console" ∨ i.options.channel = .text "null") ∧
        ∃ code, compile (sourceOfFile bytes) = .ok code)

/-- If it comes to running the program, its run ends. -/
def RunEnds (i : Invocation) (content : Option (List UInt8)) (input : List Char) : Prop :=
  ∀ bytes kind size runs, content = some bytes → i.Runs kind size runs →
    (∃ code, compile (sourceOfFile bytes) = .ok code) →
      ∃ e output, RunsTo (sourceOfFile bytes) size (i.fed runs input) e output kind

section Stops

theorem answers_of_stop {outcome : Outcome} (h : i.plan content input = .stop outcome) :
    i.Answers content input times outcome.exit outcome.printed :=
  ⟨0, outcome.log, fun n _ => by rw [Invocation.outcome, h, Plan.carryOut]; rfl⟩

/-- A settled answer with one of the two statuses. -/
def Returns (i : Invocation) (content : Option (List UInt8)) (input : List Char) (times : String) :
    Prop :=
  ∃ code ≤ 1, ∃ printed, i.Answers content input times (.status code) printed

theorem returns_of_stopWith {code : ℕ} {text : String} {log : List Event} (hcode : code ≤ 1)
    (h : i.plan content input = i.stopWith code text log) : i.Returns content input times :=
  ⟨code, hcode, text, answers_of_stop h⟩

theorem kind_of_named? (h : i.options.backend.text?.bind Engine.named? = some engine) :
    ∃ kind, i.options.backend = .text kind ∧ (kind = "vm" ∨ kind = "naive") := by
  cases hbackend : i.options.backend with
  | blank =>
    rw [hbackend] at h
    cases h
  | text kind =>
    rw [hbackend] at h
    have hkind : Engine.named? kind = some engine := h
    refine ⟨kind, rfl, ?_⟩
    unfold Engine.named? at hkind
    split at hkind
    · exact .inl rfl
    · exact .inr rfl
    · cases hkind

theorem channel_of_named? {channel : Channel}
    (h : i.options.channel.text?.bind (Channel.named? input) = some channel) :
    i.options.channel = .text "console" ∨ i.options.channel = .text "null" := by
  cases hchannel : i.options.channel with
  | blank =>
    rw [hchannel] at h
    cases h
  | text kind =>
    rw [hchannel] at h
    have hkind : Channel.named? input kind = some channel := h
    unfold Channel.named? at hkind
    split at hkind
    · exact .inl rfl
    · exact .inr rfl
    · cases hkind

end Stops

/-- A file whose program has been translated: it is listed, or run. -/
theorem returns_of_translated (file : '\x00' ∉ i.file.toList)
    (room : ∀ size, i.options.size = some size → Room.refusal? size.val = none)
    (ends : i.RunEnds (some bytes) input) (h : ¬ i.MissesNumber (some bytes)) {channel : Channel}
    (hengine : i.options.backend.text?.bind Engine.named? = some engine)
    (hsize : i.options.size = some size)
    (hchannel : i.options.channel.text?.bind (Channel.named? input) = some channel)
    (compiles : ∃ code, compile (sourceOfFile bytes) = .ok code) :
    i.Returns (some bytes) input times := by
  obtain ⟨kind, hkind, hknown⟩ := kind_of_named? hengine
  cases hlisting : i.options.listing with
  | true =>
    have hplan := planFile_of_translated hengine hsize hchannel
      (fault_translated_of_compiles hengine compiles)
    rw [← plan_readable file, planRun, if_pos hlisting] at hplan
    split at hplan
    · exact returns_of_stopWith (Nat.zero_le 1) hplan
    · exact returns_of_stopWith le_rfl hplan
  | false =>
    cases hbench : i.options.bench with
    | none =>
      exact absurd ⟨bytes, rfl, ⟨kind, hkind, hknown⟩,
        .inr ⟨hbench, hlisting, channel_of_named? hchannel, compiles⟩⟩ h
    | some runs =>
      have hruns : i.Runs kind size runs :=
        ⟨hkind, hknown, channel_of_named? hchannel, hsize, hbench, hlisting⟩
      obtain ⟨e, output, hrun⟩ := ends bytes kind size runs rfl hruns compiles
      exact ⟨e.status, e.status_le_one, _, answers_of_runsTo file hruns (room size hsize) hrun⟩

theorem returns_of_not_missesNumber (file : '\x00' ∉ i.file.toList)
    (room : ∀ size, i.options.size = some size → Room.refusal? size.val = none)
    (ends : i.RunEnds content input) (h : ¬ i.MissesNumber content) :
    i.Returns content input times := by
  cases content with
  | none => exact returns_of_stopWith le_rfl (plan_unreadable file)
  | some bytes =>
    have hplan := plan_readable file bytes input
    cases hengine : i.options.backend.text?.bind Engine.named? with
    | none =>
      simp only [planFile, hengine] at hplan
      exact returns_of_stopWith le_rfl hplan
    | some engine =>
      obtain ⟨kind, hkind, hknown⟩ := kind_of_named? hengine
      cases hsize : i.options.size with
      | none =>
        exact absurd ⟨bytes, rfl, ⟨kind, hkind, hknown⟩, .inl hsize⟩ h
      | some size =>
        cases hchannel : i.options.channel.text?.bind (Channel.named? input) with
        | none =>
          simp only [planFile, hengine, hsize, hchannel] at hplan
          exact returns_of_stopWith le_rfl hplan
        | some channel =>
          cases hcompile : compile (sourceOfFile bytes) with
          | error f =>
            rw [planFile_of_refused hengine hsize hchannel hcompile] at hplan
            exact returns_of_stopWith le_rfl hplan
          | ok code =>
            exact returns_of_translated file room ends h hengine hsize hchannel ⟨code, hcompile⟩

theorem answers_of_missesNumber (file : '\x00' ∉ i.file.toList) (h : i.MissesNumber content) :
    i.Answers content input times (.uncaught .notANumber) "" := by
  obtain ⟨bytes, rfl, ⟨kind, hkind, hknown⟩, hmissing⟩ := h
  have hplan := plan_readable file bytes input
  obtain ⟨engine, hengine, -⟩ := exists_engine hkind hknown
  cases hsize : i.options.size with
  | none =>
    simp only [planFile, hengine, hsize] at hplan
    exact answers_of_stop hplan
  | some size =>
    rcases hmissing with hnone | ⟨hbench, hlisting, hchannel, compiles⟩
    · cases hsize.symm.trans hnone
    · obtain ⟨channel, hchannel⟩ := exists_channel hchannel input
      rw [planFile_of_translated hengine hsize hchannel
        (fault_translated_of_compiles hengine compiles)] at hplan
      simp only [planRun, hlisting, hbench, Bool.false_eq_true, if_false] at hplan
      exact answers_of_stop hplan

end Invocation

open Invocation

/-- Every invocation with a run that ends returns a status of 0 or 1, unless it misses a number; then
it ends with a fault that nobody handles. What is printed is the fault of compilation, without
anything being run; or the output of the run and how it ended; or, if output is discarded, how the
run on no input ended, after the summary of a benchmark. -/
theorem invocation_outcome (i : Invocation) (content : Option (List UInt8)) (input : List Char)
    (times : String) (file : '\x00' ∉ i.file.toList)
    (room : ∀ size, i.options.size = some size → Room.refusal? size.val = none)
    (ends : i.RunEnds content input) :
    (¬ i.MissesNumber content →
      ∃ code ≤ 1, ∃ printed, i.Answers content input times (.status code) printed) ∧
    (i.MissesNumber content → i.Answers content input times (.uncaught .notANumber) "") ∧
    ∀ bytes kind size runs, content = some bytes → i.Runs kind size runs →
      (∀ f, compile (sourceOfFile bytes) = .error f → ∀ limit,
        i.outcome limit content input times =
          some ⟨.status 1, "Compilation error " ++ f.message ++ "\n", []⟩) ∧
      (i.options.channel = .text "console" → runs ≤ 0 →
        ∀ e output, RunsTo (sourceOfFile bytes) size input e output kind →
          i.Answers content input times (.status e.status) (output ++ e.closing)) ∧
      (i.options.channel = .text "null" ∨ 0 < runs →
        ∀ e output, RunsTo (sourceOfFile bytes) size [] e output kind →
          i.Answers content input times (.status e.status)
            ((if 0 < runs then e.summary runs.toNat times else "") ++ e.closing)) := by
  refine ⟨returns_of_not_missesNumber file room ends, answers_of_missesNumber file, ?_⟩
  rintro bytes kind size runs rfl hruns
  refine ⟨fun f => outcome_of_refused file hruns, ?_, ?_⟩
  · intro hconsole hle e output hrun
    have hfed : i.fed runs input = input := if_pos ⟨hconsole, hle⟩
    have hanswers : i.Answers (some bytes) input times _ _ :=
      answers_of_runsTo file hruns (room size hruns.size) (hfed.symm ▸ hrun)
    rwa [shown, if_neg (not_lt.mpr hle), if_pos hconsole] at hanswers
  · intro hquiet e output hrun
    have hsilent (hle : ¬ 0 < runs) : i.options.channel ≠ .text "console" := by
      rw [hquiet.resolve_right hle]
      decide
    have hfed : i.fed runs input = [] := if_neg fun h => hsilent (not_lt.mpr h.2) h.1
    have hanswers : i.Answers (some bytes) input times _ _ :=
      answers_of_runsTo file hruns (room size hruns.size) (hfed.symm ▸ hrun)
    have hshown : i.shown runs times output e =
        if 0 < runs then e.summary runs.toNat times else "" := by
      rw [shown]
      split_ifs with hpos hconsole
      · rfl
      · exact absurd hconsole (hsilent hpos)
      · rfl
    rwa [hshown] at hanswers

/-- The program `+.<` writes one character and leaves its only cell. -/
theorem invocation_outcome_off_tape :
    Invocation.Answers ⟨{ size := some ⟨1, by decide⟩ }, "p.bf"⟩ (some [0x2B, 0x2E, 0x3C]) [] ""
      (.status 1) "\x01\nRuntime error Data pointer out of tape! @-1 (size 1)\n" := by
  have hrun : RunsTo (sourceOfFile [0x2B, 0x2E, 0x3C]) ⟨1, by decide⟩ []
      (.failed (.offTape (-1) 1)) "\x01" "vm" :=
    .vm (s := ⟨2, ⟨1, #[some 1], -1, .buffer [] #["\x01"]⟩⟩)
      ⟨#[⟨.add, some 1⟩, ⟨.print, none⟩, ⟨.move, some (-1)⟩, ⟨.stop, none⟩], 10, by decide,
        by decide⟩ rfl
  have hruns : Invocation.Runs ⟨{ size := some ⟨1, by decide⟩ }, "p.bf"⟩ "vm" ⟨1, by decide⟩ 0 :=
    ⟨rfl, .inl rfl, .inl rfl, rfl, rfl, rfl⟩
  have ends : RunEnds ⟨{ size := some ⟨1, by decide⟩ }, "p.bf"⟩ (some [0x2B, 0x2E, 0x3C]) [] := by
    rintro bytes kind size runs ⟨⟩ ⟨⟨⟩, -, -, ⟨⟩, ⟨⟩, -⟩ -
    exact ⟨_, _, hrun⟩
  obtain ⟨-, -, hexact⟩ := invocation_outcome _ _ _ "" (by decide) (by rintro size ⟨⟩; rfl) ends
  exact (hexact _ _ _ _ rfl hruns).2.1 rfl le_rfl _ _ hrun

/-- Two dashes attached to the size leave it without a number. The file `[` would be refused, but the
invocation does not come to that. -/
theorem missing_size_escapes :
    Invocation.ofWords ["--memory-size=--", "p.bf"] =
        .ok (some ⟨{ size := none }, "p.bf"⟩) ∧
      compile (sourceOfFile [0x5B]) = .error .missingClose ∧
      ∀ limit, outcome limit ⟨{ size := none }, "p.bf"⟩ (some [0x5B]) [] "" =
        some ⟨.uncaught .notANumber, "", []⟩ := by
  have hwords : Word.readAll ["--memory-size=--", "p.bf"] =
      .ok [.option ⟨"--memory-size", .size⟩ (some ['-', '-']), .value "p.bf"] := by
    decide
  have hcluster : Cluster.ofWord ⟨"--memory-size", .size⟩ (some ['-', '-']) =
      .ok ⟨[], .argument .size "--"⟩ := rfl
  refine ⟨?_, by decide, fun limit => rfl⟩
  rw [ofWords, hwords]
  simp only [bind, Except.bind, Progress.takeAll, hcluster, Progress.dropSeparator]
  rfl

end Cli
end TapeMachine
