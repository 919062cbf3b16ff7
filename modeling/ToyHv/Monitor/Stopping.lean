import ToyHv.Library.Runs
import ToyHv.Model.Main

namespace ToyHv
open Library

def MonInput.Quits (input : MonInput) : Prop := ∃ ran, input.read = .char '\n' ran ∧ .quit ∈ ran

def MainEvent.Quits : MainEvent → Prop
  | .exit (.systemCall (.service name _)) => name ∈ ["exit", "enter", "boot", "chain"]
  | .exit _ => False
  | .trace script => ∃ ran, script = some ran ∧ .quit ∈ ran
  | .check input | .sync input => input.Quits
  | .accept _ => False

def Requested (startup : List MonCommand) (history : List MainEvent) : Prop :=
  .quit ∈ startup ∨ ∃ e ∈ history, e.Quits

/-- A line evaluated in the sync monitor leaves no pause behind: it ends in another command, or it
    runs none and no pause is pending. -/
def MainEvent.Calm (s : Main) : MainEvent → Prop
  | .sync input => ∀ ran, input.read = .char '\n' ran →
      ran.getLast? ≠ some .pause ∧ (ran = [] → s.mon.picolErr ≠ .pause)
  | _ => True

def CalmStep (s : Main) (e : MainEvent) (t : Main) : Prop := MainStep s e t ∧ e.Calm s

variable {s t : Main} {e : MainEvent} {mon mon' : Mon} {input : MonInput} {err : Err}

theorem picolErrAfter_append (picolErr : Err) (first second : List MonCommand) :
    picolErrAfter picolErr (first ++ second) = picolErrAfter (picolErrAfter picolErr first) second :=
  List.foldl_append

theorem picolErrAfter_last (picolErr : Err) (ran : List MonCommand) :
    picolErrAfter picolErr ran = match ran.getLast? with
      | some command => command.err
      | none => picolErr := by
  cases ran using List.reverseRecOn with
  | nil => rfl
  | append_singleton ran command =>
    rw [picolErrAfter_append, List.getLast?_concat]
    rfl

theorem picolErrAfter_shutdown {ran : List MonCommand} (left : picolErrAfter .none ran = .shutdown) : .quit ∈ ran := by
  rw [picolErrAfter_last] at left
  cases last : ran.getLast? with
  | none => rw [last] at left; cases left
  | some command =>
    rw [last] at left
    cases command with
    | quit => exact List.mem_of_getLast? last
    | cont => cases left
    | pause => cases left

theorem picolErrAfter_pause (picolErr : Err) (ran : List MonCommand) :
    picolErrAfter picolErr ran = .pause ↔ ran.getLast? = some .pause ∨ (ran = [] ∧ picolErr = .pause) := by
  rw [picolErrAfter_last]
  cases last : ran.getLast? with
  | none => simp [List.getLast?_eq_none_iff.mp last]
  | some command =>
    have ended : ran ≠ [] := by
      rintro rfl
      cases last
    cases command <;> simp [MonCommand.err, ended]

theorem picolErrAfter_none (ran : List MonCommand) :
    picolErrAfter .none ran = .none ∨ picolErrAfter .none ran = .shutdown ∨ picolErrAfter .none ran = .continue ∨
      picolErrAfter .none ran = .pause := by
  rw [picolErrAfter_last]
  cases ran.getLast? with
  | none => exact .inl rfl
  | some command => cases command <;> simp [MonCommand.err]

theorem handleConnect_picolErr (mon : Mon) : mon.handleConnect.picolErr = mon.picolErr := by
  unfold Mon.handleConnect
  split <;> rfl

theorem monStore_picolErr (mon : Mon) (c : Char) : (monStore mon c).picolErr = mon.picolErr := by
  unfold monStore
  split <;> rfl

theorem monPrompt_picolErr (mon : Mon) (connects : Bool) : (monPrompt mon connects).picolErr = mon.picolErr := by
  unfold monPrompt
  split
  · exact handleConnect_picolErr mon
  · rfl

theorem monChar_other {c : Char} (other : c ≠ '\n') (mon : Mon) (ran : List MonCommand) :
    (monChar mon c ran).1 = .none ∧ (monChar mon c ran).2.picolErr = mon.picolErr := by
  simp only [monChar, if_neg other]
  split
  · refine ⟨rfl, ?_⟩
    rw [monStore_picolErr]
    split <;> rfl
  · split
    · exact ⟨rfl, rfl⟩
    · exact ⟨rfl, monStore_picolErr mon c⟩

theorem monChar_newline (mon : Mon) (ran : List MonCommand) :
    (monChar mon '\n' ran).1 = picolErrAfter mon.picolErr ran ∧ (monChar mon '\n' ran).2.picolErr = .none :=
  ⟨rfl, rfl⟩

/-- Between lines `mon_check` leaves `picol_err` alone. A line's error is returned, and forgotten. -/
theorem monCheck_cases (checked : monCheck mon input = (err, mon')) :
    ((∀ ran, input.read ≠ .char '\n' ran) ∧ err = .none ∧ mon'.picolErr = mon.picolErr) ∨
    ∃ ran, input.read = .char '\n' ran ∧ err = picolErrAfter mon.picolErr ran ∧ mon'.picolErr = .none := by
  generalize same : (if mon.pendPrompt then
    { monPrompt mon input.connects with pendPrompt := false } else mon) = before
  have kept : before.picolErr = mon.picolErr := by
    rw [← same]
    split
    · exact monPrompt_picolErr mon input.connects
    · rfl
  have connected := (handleConnect_picolErr before).trans kept
  simp only [monCheck, same] at checked
  cases read : input.read with
  | absent =>
    rw [read] at checked
    obtain ⟨rfl, rfl⟩ := Prod.mk.inj checked
    exact .inl ⟨by simp, rfl, kept⟩
  | empty =>
    rw [read] at checked
    obtain ⟨rfl, rfl⟩ := Prod.mk.inj checked
    exact .inl ⟨by simp, rfl, connected⟩
  | closed =>
    rw [read] at checked
    obtain ⟨rfl, rfl⟩ := Prod.mk.inj checked
    exact .inl ⟨by simp, rfl, connected⟩
  | char c ran =>
    simp only [read] at checked
    by_cases newline : c = '\n'
    · subst newline
      obtain ⟨reported, forgotten⟩ := monChar_newline before.handleConnect ran
      rw [checked, connected] at reported
      rw [checked] at forgotten
      exact .inr ⟨ran, rfl, reported, forgotten⟩
    · obtain ⟨quiet, left⟩ := monChar_other newline before.handleConnect ran
      rw [checked] at quiet left
      refine .inl ⟨?_, quiet, left.trans connected⟩
      rintro line ⟨⟩
      exact newline rfl

theorem lookup_mem {α : Type} {name : String} {x : α} {table : List (String × α)}
    (found : table.lookup name = some x) : (name, x) ∈ table := by
  obtain ⟨before, after, rfl, _⟩ := List.lookup_eq_some_iff.mp found
  simp

theorem handlers_shutdown (name : String) :
    handlers.lookup name = some .shutdown ↔ name ∈ ["exit", "enter", "boot", "chain"] := by
  constructor
  · intro found
    simpa [handlers] using lookup_mem found
  · intro listed
    simp only [List.mem_cons, List.not_mem_nil, or_false] at listed
    rcases listed with rfl | rfl | rfl | rfl
    · rfl
    · rfl
    · rfl
    · rfl

/-- Four services make `rom_call` ask for a shutdown. -/
theorem romCall_shutdown_iff (call : SystemCall) :
    romCall call = .shutdown ↔ (MainEvent.exit (.systemCall call)).Quits := by
  cases call with
  | elsewhere => simp [romCall, MainEvent.Quits]
  | unreadable => simp [romCall, MainEvent.Quits]
  | service name answer =>
    rw [MainEvent.Quits, ← handlers_shutdown, romCall]
    cases handlers.lookup name with
    | none => simp
    | some handler =>
      by_cases shutdown : handler = .shutdown
      · simp [shutdown]
      · simp only [shutdown, if_false, Option.some.injEq, iff_false]
        split
        · exact answer.property
        · simp

/-- Whatever `picol_err` holds, commands left it there, and a quit among them was a request. -/
def Pending (startup : List MonCommand) (history : List MainEvent) (s : Main) : Prop :=
  ∃ ran, s.mon.picolErr = picolErrAfter .none ran ∧ (.quit ∈ ran → Requested startup history)

theorem Requested.later {startup : List MonCommand} {history : List MainEvent} (e : MainEvent)
    (requested : Requested startup history) : Requested startup (history ++ [e]) := by
  rcases requested with asked | ⟨earlier, member, asked⟩
  · exact .inl asked
  · exact .inr ⟨earlier, List.mem_append_left _ member, asked⟩

theorem Requested.now {startup : List MonCommand} {history : List MainEvent} (quits : e.Quits) :
    Requested startup (history ++ [e]) :=
  .inr ⟨e, List.mem_append_right _ (List.mem_singleton_self e), quits⟩

theorem Pending.script {startup ran : List MonCommand} {history : List MainEvent}
    (pending : Pending startup history s) (quits : .quit ∈ ran → e.Quits) :
    ∃ all, picolErrAfter s.mon.picolErr ran = picolErrAfter .none all ∧
      (.quit ∈ all → Requested startup (history ++ [e])) := by
  obtain ⟨before, left, requested⟩ := pending
  refine ⟨before ++ ran, by rw [left, picolErrAfter_append], ?_⟩
  intro member
  rcases List.mem_append.mp member with earlier | later
  · exact (requested earlier).later e
  · exact .now (quits later)

theorem Pending.same {startup : List MonCommand} {history : List MainEvent} (pending : Pending startup history s)
    (same : t.mon.picolErr = s.mon.picolErr) : Pending startup history t := by
  obtain ⟨ran, left, requested⟩ := pending
  exact ⟨ran, same.trans left, requested⟩

theorem Pending.later {startup : List MonCommand} {history : List MainEvent} (e : MainEvent)
    (pending : Pending startup history s) : Pending startup (history ++ [e]) s := by
  obtain ⟨ran, left, requested⟩ := pending
  exact ⟨ran, left, fun member => (requested member).later e⟩

/-- What is known of an error that a script left: a shutdown was requested. -/
structure Reported (startup : List MonCommand) (history : List MainEvent) (err : Err) (mon : Mon) : Prop where
  pending : ∀ place, Pending startup history ⟨place, mon⟩
  requested : err = .shutdown → Requested startup history
  known : err = .none ∨ err = .shutdown ∨ err = .continue ∨ err = .pause

theorem Pending.check {startup : List MonCommand} {history : List MainEvent} (pending : Pending startup history s)
    (quits : input.Quits → e.Quits) (checked : monCheck s.mon input = (err, mon')) :
    Reported startup (history ++ [e]) err mon' := by
  rcases monCheck_cases checked with ⟨_, rfl, kept⟩ | ⟨ran, line, rfl, cleared⟩
  · exact ⟨fun place => (pending.later e).same kept, by simp, .inl rfl⟩
  · have asked : .quit ∈ ran → e.Quits := fun member => quits ⟨ran, line, member⟩
    obtain ⟨all, whole, requested⟩ := pending.script asked
    refine ⟨fun place => ⟨[], cleared, by simp⟩, ?_, ?_⟩
    · intro shutdown
      rw [whole] at shutdown
      exact requested (picolErrAfter_shutdown shutdown)
    · rw [whole]
      exact picolErrAfter_none all

theorem Pending.trace {startup : List MonCommand} {history : List MainEvent} {script : Option (List MonCommand)}
    (pending : Pending startup history s) (traced : monTrace s.mon script = (err, mon')) :
    Reported startup (history ++ [.trace script]) err mon' := by
  cases script with
  | none =>
    simp only [monTrace, Prod.mk.injEq] at traced
    obtain ⟨rfl, rfl⟩ := traced
    exact ⟨fun place => pending.later _, by simp, .inl rfl⟩
  | some ran =>
    have asked : .quit ∈ ran → (MainEvent.trace (some ran)).Quits := fun member => ⟨ran, rfl, member⟩
    obtain ⟨all, whole, requested⟩ := pending.script asked
    simp only [monTrace, Mon.takeErr, whole, Prod.mk.injEq] at traced
    obtain ⟨rfl, rfl⟩ := traced
    refine ⟨fun place => ⟨[], rfl, by simp⟩, ?_, ?_⟩
    · split
      · simp
      · exact fun shutdown => requested (picolErrAfter_shutdown shutdown)
    · split
      · exact .inl rfl
      · exact picolErrAfter_none all

theorem exit_picolErr (s : Main) (ret : VmmReturn) : (s.exit ret).mon.picolErr = s.mon.picolErr := by
  cases ret with
  | pageFault isi err =>
    simp only [Main.exit]
    split <;> rfl
  | programException err =>
    simp only [Main.exit]
    split <;> rfl
  | systemCall call =>
    simp only [Main.exit]
    split
    · rfl
    split <;> rfl
  | _ => rfl

theorem exit_stop {ret : VmmReturn} (stopped : (s.exit ret).place = .stop) : (MainEvent.exit ret).Quits := by
  cases ret with
  | systemCall call =>
    simp only [Main.exit] at stopped
    split at stopped
    · rename_i shutdown
      exact (romCall_shutdown_iff call).mp shutdown
    split at stopped <;> cases stopped
  | pageFault isi err =>
    simp only [Main.exit] at stopped
    split at stopped <;> cases stopped
  | programException err =>
    simp only [Main.exit] at stopped
    split at stopped <;> cases stopped
  | null => cases stopped
  | bogusContext | stopped | alignmentFault | traceException | altivecAssist | invalidAdSpace | other code =>
    cases stopped

theorem MainEvent.calm_sync (s : Main) (input : MonInput) :
    (MainEvent.sync input).Calm s ↔
      ∀ ran, input.read = .char '\n' ran → picolErrAfter s.mon.picolErr ran ≠ .pause := by
  simp only [MainEvent.Calm, ne_eq, picolErrAfter_pause, not_or, not_and]

/-- One calm step, wherever the loop is: it stops on a request only. -/
theorem Pending.step {startup : List MonCommand} {history : List MainEvent} (pending : Pending startup history s)
    (taken : MainStep s e t) (calm : e.Calm s) :
    Pending startup (history ++ [e]) t ∧ (t.place = .stop → Requested startup (history ++ [e])) := by
  cases e with
  | exit ret =>
    simp only [MainStep, Main.step, Option.ite_none_right_eq_some, Option.some.injEq] at taken
    obtain ⟨_, rfl⟩ := taken
    exact ⟨(pending.later _).same (exit_picolErr s ret), fun stopped => .now (exit_stop stopped)⟩
  | trace script =>
    simp only [MainStep, Main.step, Option.ite_none_right_eq_some, Option.some.injEq] at taken
    obtain ⟨_, rfl⟩ := taken
    have reported := pending.trace (Prod.mk.eta (p := monTrace s.mon script)).symm
    split
    · rename_i shutdown
      exact ⟨reported.pending _, fun _ => reported.requested shutdown⟩
    split
    · exact ⟨(reported.pending .trace).same rfl, fun stopped => by cases stopped⟩
    · exact ⟨reported.pending _, fun stopped => by cases stopped⟩
  | check input =>
    simp only [MainStep, Main.step, Option.ite_none_right_eq_some, Option.some.injEq] at taken
    obtain ⟨_, rfl⟩ := taken
    have reported := pending.check (e := .check input) id (Prod.mk.eta (p := monCheck s.mon input)).symm
    split
    · rename_i shutdown
      exact ⟨reported.pending _, fun _ => reported.requested shutdown⟩
    split
    · exact ⟨(reported.pending .check).same rfl, fun stopped => by cases stopped⟩
    · exact ⟨reported.pending _, fun stopped => by cases stopped⟩
  | accept accepted =>
    simp only [MainStep, Main.step, Option.ite_none_right_eq_some, Option.some.injEq] at taken
    obtain ⟨place, rfl⟩ := taken
    split
    · exact ⟨(pending.later _).same (handleConnect_picolErr s.mon), fun stopped => by cases stopped⟩
    · exact ⟨pending.later _, fun stopped => by rw [place] at stopped; cases stopped⟩
  | sync input =>
    simp only [MainStep, Main.step, Option.ite_none_right_eq_some, Option.some.injEq] at taken
    obtain ⟨_, rfl⟩ := taken
    have reported := pending.check (e := .sync input) id (Prod.mk.eta (p := monCheck s.mon input)).symm
    split
    · exact ⟨(reported.pending .guest).same rfl, fun stopped => by cases stopped⟩
    split
    · rename_i more failed
      refine ⟨(reported.pending .stop).same rfl, fun _ => ?_⟩
      -- a script's error that is neither nothing, cont nor pause is a quit
      rcases reported.known with none | shutdown | continued | paused
      · exact absurd none failed
      · exact reported.requested shutdown
      · exact absurd continued more
      · rcases monCheck_cases (Prod.mk.eta (p := monCheck s.mon input)).symm with ⟨_, none, _⟩ | ⟨ran, line, same, _⟩
        · exact absurd none failed
        · rw [same] at paused
          exact absurd paused ((MainEvent.calm_sync s input).mp calm ran line)
    · exact ⟨reported.pending _, fun stopped => by cases stopped⟩

theorem restless_stops (taken : MainStep s e t) (restless : ¬ e.Calm s) : t.place = .stop := by
  cases e with
  | sync input =>
    rw [MainEvent.calm_sync] at restless
    simp only [not_forall, not_not] at restless
    obtain ⟨ran, line, paused⟩ := restless
    simp only [MainStep, Main.step, Option.ite_none_right_eq_some, Option.some.injEq] at taken
    obtain ⟨_, rfl⟩ := taken
    rcases monCheck_cases (Prod.mk.eta (p := monCheck s.mon input)).symm with ⟨no, _⟩ | ⟨typed, read, same, _⟩
    · exact absurd line (no ran)
    · rw [line] at read
      obtain ⟨_, rfl⟩ := SocketRead.char.inj read
      rw [paused] at same
      simp only [same, reduceCtorEq, if_false, ne_eq, not_false_eq_true, if_true]
  | exit ret => exact absurd trivial restless
  | trace script => exact absurd trivial restless
  | check input => exact absurd trivial restless
  | accept accepted => exact absurd trivial restless

/-- While the sync monitor is calm, the loop stops only on a request. Where it is not, it stops. -/
theorem stops_on_request_only (startup : List MonCommand) :
    (∀ history t, Run CalmStep (Main.start startup) history t → t.place = .stop → Requested startup history) ∧
    ∀ s e t, MainStep s e t → ¬ e.Calm s → t.place = .stop := by
  constructor
  · intro history t run
    have whole : Pending startup history t ∧ (t.place = .stop → Requested startup history) := by
      apply run.invariant (I := fun history t =>
        Pending startup history t ∧ (t.place = .stop → Requested startup history))
      · exact ⟨⟨startup, rfl, .inl⟩, fun stopped => by cases stopped⟩
      rintro history t e u ⟨pending, _⟩ ⟨taken, calm⟩
      exact pending.step taken calm
    exact whole.2
  · intro s e t taken restless
    exact restless_stops taken restless

def syncMonitor : Main := ⟨.monitor, ⟨true, fun _ => '\x00', 0, .none, true, true⟩⟩

theorem syncMonitor_reached :
    Run CalmStep (Main.start []) ([.exit .traceException] ++ [.accept true]) syncMonitor := by
  have first : MainStep (Main.start []) (.exit .traceException) (Main.start []).unhandled := rfl
  have second : MainStep (Main.start []).unhandled (.accept true) syncMonitor := rfl
  exact .snoc (.single ⟨first, trivial⟩) ⟨second, trivial⟩

theorem quit_stops :
    Requested [] ([.exit .traceException] ++ [.accept true] ++ [.sync ⟨false, .char '\n' [.quit]⟩]) := by
  obtain ⟨t, taken, stopped⟩ : ∃ t, MainStep syncMonitor (.sync ⟨false, .char '\n' [.quit]⟩) t ∧ t.place = .stop :=
    ⟨_, rfl, rfl⟩
  have calm : (MainEvent.sync ⟨false, .char '\n' [.quit]⟩).Calm syncMonitor := by
    rintro ran ⟨⟩
    decide
  exact (stops_on_request_only []).1 _ _ (.snoc syncMonitor_reached ⟨taken, calm⟩) stopped

/-- A pause typed in instead stops the VM as well. -/
theorem pause_stops : ¬ ∀ (startup : List MonCommand) (history : List MainEvent) (t : Main),
    Run MainStep (Main.start startup) history t → t.place = .stop → Requested startup history := by
  intro always
  obtain ⟨t, taken, stopped⟩ : ∃ t, MainStep syncMonitor (.sync ⟨false, .char '\n' [.pause]⟩) t ∧ t.place = .stop :=
    ⟨_, rfl, rfl⟩
  have run := Run.snoc (syncMonitor_reached.mono fun _ _ _ step => step.1) taken
  rcases always [] _ _ run stopped with startup | ⟨e, member, quits⟩
  · cases startup
  · simp only [List.mem_append, List.mem_singleton] at member
    rcases member with (rfl | rfl) | rfl
    · exact quits
    · exact quits
    · obtain ⟨ran, line, member⟩ := quits
      cases line
      exact absurd member (by decide)

end ToyHv
