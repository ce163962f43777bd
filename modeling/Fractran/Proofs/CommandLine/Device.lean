/-
  The program on a device against the response to a call.

  On the device of a console nothing happens but that lines and diagnostics are added to what the
  screen shows. The parts of the program are followed one by one (`run_log`, `run_openSource`),
  the loop with what the transcript has so far on the screen (`run_drive`). So a call adds to the
  screen what its response says and ends with the exit status of the response (`run_execute`):
  the program that a process runs is the one that `respond` describes.
-/
import Fractran.CommandLine.Device
import Mathlib.Tactic.Common

namespace Fractran.CommandLine

/-- What was printed and written. -/
structure Screen where
  output : List String := []
  diagnostics : List Diagnostic := []

namespace Screen

variable (screen : Screen)

def print (line : String) : Screen := { screen with output := screen.output ++ [line] }

def complain (d : Diagnostic) : Screen :=
  { screen with diagnostics := screen.diagnostics ++ [d] }

/-- What a log writes is added. -/
def log (entries : List Log.Entry) : Screen :=
  { screen with diagnostics := screen.diagnostics ++ entries.map .entry }

/-- A response is added. -/
def append (r : Response) : Screen :=
  ⟨screen.output ++ r.output, screen.diagnostics ++ r.diagnostics⟩

/-- What a run has printed and noted is added. -/
def transcribe (log : Log) (t : Transcript) : Screen :=
  ⟨screen.output ++ t.lines.toList,
    screen.diagnostics ++ (log.writeAll .debug t.notes.toList).map .entry⟩

theorem log_nil : screen.log [] = screen := by simp [log]

theorem log_log (entries entries' : List Log.Entry) :
    (screen.log entries).log entries' = screen.log (entries ++ entries') := by simp [log]

/-- A failure is what was logged before, and its report. -/
theorem append_failure (log : Log) (before : List Log.Entry) (e : Error) :
    screen.append (failure log before e) =
      (screen.log before).log (log.write .error e.message) := by
  simp [append, failure, Screen.log]

theorem transcribe_nil (log : Log) (r : Run) : screen.transcribe log { run := r } = screen := by
  simp [transcribe, Log.writeAll]

/-- A note and a line more on the screen are a note and a line more in the transcript. -/
theorem transcribe_log_print (log : Log) (t : Transcript) (notes : List String) (line : String)
    (r : Run) :
    ((screen.transcribe log t).log (log.writeAll .debug notes)).print line =
      screen.transcribe log ⟨r, t.lines.push line, t.notes ++ notes⟩ := by
  simp [transcribe, Screen.log, print, Log.writeAll]

theorem transcribe_log (log : Log) (t : Transcript) (notes : List String) (r : Run) :
    (screen.transcribe log t).log (log.writeAll .debug notes) =
      screen.transcribe log { t with run := r, notes := t.notes ++ notes } := by
  simp [transcribe, Screen.log, Log.writeAll]

end Screen

/-- The device of a console: what it reads is there from the start, what it writes is shown. -/
def onScreen (console : Console) : Device (StateM Screen) where
  terminal := pure console.terminal
  input := pure ⟨console.input, console.brokenInput⟩
  plain path := pure (console.files.plain path)
  unpack path := pure (console.files.unpack path)
  print line := modify (·.print line)
  complain d := modify (·.complain d)

/-! ## One part after another -/

section

variable {α β : Type} {s s' : Screen} {a : α} {e : Error}

theorem run_bind {x : StateM Screen α} (h : x.run s = (a, s')) (f : α → StateM Screen β) :
    (x >>= f).run s = (f a).run s' := by
  rw [StateT.run_bind, h]
  rfl

theorem run_bind_ok {x : ExceptT Error (StateM Screen) α} (h : x.run.run s = (.ok a, s'))
    (f : α → ExceptT Error (StateM Screen) β) : (x >>= f).run.run s = (f a).run.run s' := by
  rw [ExceptT.run_bind, run_bind h]

theorem run_bind_error {x : ExceptT Error (StateM Screen) α} (h : x.run.run s = (.error e, s'))
    (f : α → ExceptT Error (StateM Screen) β) : (x >>= f).run.run s = (.error e, s') := by
  rw [ExceptT.run_bind, run_bind h]
  rfl

theorem run_lift {x : StateM Screen α} (h : x.run s = (a, s')) :
    (liftM x : ExceptT Error (StateM Screen) α).run.run s = (.ok a, s') := by
  show (Except.ok <$> x : StateM Screen (Except Error α)).run s = _
  rw [StateT.run_map, h]
  rfl

theorem run_liftExcept (x : Except Error α) :
    (liftExcept x : ExceptT Error (StateM Screen) α).run.run s = (x, s) := by
  cases x <;> rfl

end

/-! ## What is read and written -/

section

variable (console : Console) (screen : Screen)

theorem run_log (entries : List Log.Entry) :
    ((onScreen console).log entries).run screen = ((), screen.log entries) := by
  induction entries generalizing screen with
  | nil =>
    rw [Screen.log_nil]
    rfl
  | cons e entries ih =>
    show ((onScreen console).log entries).run (screen.complain (.entry e)) = _
    rw [ih]
    simp [Screen.log, Screen.complain]

theorem run_print (lines : List String) :
    (lines.forM (onScreen console).print).run screen =
      ((), { screen with output := screen.output ++ lines }) := by
  induction lines generalizing screen with
  | nil =>
    rw [List.append_nil]
    rfl
  | cons line lines ih =>
    show (lines.forM (onScreen console).print).run (screen.print line) = _
    rw [ih]
    simp [Screen.print]

theorem run_fail (log : Log) (e : Error) :
    ((onScreen console).fail log e).run screen = (1, screen.log (log.write .error e.message)) := by
  rw [Device.fail, run_bind (run_log console screen _)]
  rfl

theorem run_openSource (origin : Origin) :
    ((onScreen console).openSource origin).run.run screen = (origin.openIn console, screen) := by
  cases origin with
  | standardInput => rfl
  | file path =>
    rw [Device.openSource, Origin.openIn, Files.openFile]
    split_ifs with hname
    · have hunpack : ((onScreen console).unpack path).run screen =
          (console.files.unpack path, screen) := rfl
      rw [run_bind_ok (run_lift hunpack), run_liftExcept, Files.openCompressed, if_pos hname]
    · have hplain : ((onScreen console).plain path).run screen =
          (console.files.plain path, screen) := rfl
      rw [run_bind_ok (run_lift hplain), run_liftExcept]

/-- The seed and the program are read as from the source at once, and the log shows how far the
    reading came. -/
theorem run_load (o : Options) (origin : Origin) (numeral : String) :
    ((onScreen console).load o origin numeral).run.run screen =
      (load numeral (origin.openIn console),
        screen.log (readingEntries console o origin numeral)) := by
  rw [Device.load, run_bind_ok (run_lift (run_log console screen _)), load, readingEntries]
  cases Integer.read numeral with
  | error e =>
    rw [run_bind_error (run_liftExcept _)]
    rfl
  | ok n =>
    have hopen := run_openSource console (screen.log (opening o)) origin
    rw [run_bind_ok (run_liftExcept _)]
    cases hstream : origin.openIn console with
    | error e =>
      rw [run_bind_error (hopen.trans (by rw [hstream]))]
      rfl
    | ok source =>
      rw [run_bind_ok (hopen.trans (by rw [hstream])), run_bind_ok (run_lift (run_log console _ _)),
        Screen.log_log]
      cases hparse : source.parse with
      | error e =>
        rw [run_bind_error (run_liftExcept _)]
        simp only [bind, Except.bind, hparse]
      | ok p =>
        rw [run_bind_ok (run_liftExcept _)]
        simp only [bind, Except.bind, hparse]
        rfl

/-! ## Runs -/

/-- The loop on the device goes through the steps of the machine, and the screen shows what the
    transcript has. -/
theorem run_drive (j : Job) (limit : Nat) (t : Transcript) :
    ((onScreen console).drive j limit t.run).run (screen.transcribe j.log t) =
      (((j.machine.drive j.mode limit t).1, (j.machine.drive j.mode limit t).2.run),
        screen.transcribe j.log (j.machine.drive j.mode limit t).2) := by
  induction limit generalizing t with
  | zero => rfl
  | succ limit ih =>
    rw [Device.drive, Machine.drive]
    cases j.machine.step t.run with
    | mk outcome r notes =>
      rw [run_bind (run_log console _ _)]
      cases outcome with
      | produced v =>
        have hprint : ((onScreen console).print (j.machine.line j.mode r v)).run
            ((screen.transcribe j.log t).log (j.log.writeAll .debug notes)) = ((), _) :=
          congrArg (Prod.mk ()) (screen.transcribe_log_print j.log t notes _ r)
        exact (run_bind hprint _).trans (ih ⟨r, _, _⟩)
      | ended status => exact congrArg (Prod.mk _) (screen.transcribe_log j.log t notes r)

theorem run_perform (j : Job) :
    ((onScreen console).perform j).run screen =
      ((), (screen.transcribe j.log j.perform.2).log
        (j.log.write .debug (j.closing j.perform.1 j.perform.2.run))) := by
  have hdrive := run_drive console screen j j.machine.bound { run := j.start }
  rw [screen.transcribe_nil] at hdrive
  rw [Device.perform, run_bind hdrive]
  exact run_log console _ _

/-- How running a program ends: the response is on the screen, or what was logged before a
    failure is, and the failure is left to be reported. -/
inductive Shows (o : Options) : Response → Except Error Unit × Screen → Prop where
  | done {r : Response} {after : Screen} (h : r.exit = 0) (hafter : after = screen.append r) :
      Shows o r (.ok (), after)
  | failed (before : List Log.Entry) (e : Error) :
      Shows o (failure (commandLog o) before e) (.error e, screen.log before)

theorem shows_runProgram (o : Options) (origin : Origin) (numeral : String) :
    Shows screen o (runProgram console o origin numeral)
      (((onScreen console).runProgram o origin numeral).run.run screen) := by
  have hload := run_load console screen o origin numeral
  rw [Device.runProgram, runProgram]
  cases hloaded : load numeral (origin.openIn console) with
  | error e =>
    rw [hloaded] at hload
    rw [run_bind_error hload]
    exact .failed _ e
  | ok loaded =>
    obtain ⟨n, p⟩ := loaded
    rw [hloaded] at hload
    rw [run_bind_ok hload, run_bind_ok (run_lift (run_log console _ _)), Screen.log_log]
    simp only
    cases Job.make o n p with
    | error e =>
      rw [run_bind_error (run_liftExcept _)]
      exact .failed _ e
    | ok job =>
      rw [run_bind_ok (run_liftExcept _), run_lift (run_perform console _ job)]
      refine .done rfl ?_
      simp [Screen.append, Screen.transcribe, Screen.log]

/-- On the device of a console a call adds its response to the screen and ends with the exit
    status of the response. -/
theorem run_execute (arguments : List String) :
    ((onScreen console).execute arguments).run screen =
      ((respond console arguments).exit, screen.append (respond console arguments)) := by
  unfold Device.execute respond
  rcases ({} : Options).parse arguments with ⟨o, e | positional⟩
  · simp only [run_fail, Screen.append_failure, Screen.log_nil]
    rfl
  · have hterminal : (onScreen console).terminal.run screen = (console.terminal, screen) := rfl
    simp only [run_bind hterminal]
    cases Command.select (!console.terminal) positional with
    | help =>
      simp only [run_bind (run_log console screen _), run_bind (run_print console _ _)]
      rfl
    | usage line =>
      have hcomplain : ((onScreen console).complain (.usage line)).run screen =
          ((), screen.complain (.usage line)) := rfl
      simp only [run_bind hcomplain, Screen.append, List.append_nil]
      rfl
    | run origin numeral =>
      have hshows := shows_runProgram console screen o origin numeral
      simp only
      generalize runProgram console o origin numeral = r at hshows
      generalize hrun : ((onScreen console).runProgram o origin numeral).run.run screen = x
        at hshows
      cases hshows with
      | done h hafter =>
        rw [run_bind hrun, h, hafter]
        rfl
      | failed before e =>
        rw [run_bind hrun, Screen.append_failure]
        exact run_fail console _ _ e

end

end Fractran.CommandLine
