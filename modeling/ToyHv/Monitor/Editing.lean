import ToyHv.Library.LineBuffer
import ToyHv.Model.Main

namespace ToyHv
open Library

def keepChar (line : List Char) (c : Char) : List Char :=
  if line.length = IBUF_SIZE - 1 then line else line ++ [c]

/-- A line editor: a backspace deletes, a carriage return does nothing, and what finds no room is lost. -/
def editLine (line : List Char) (c : Char) : List Char :=
  if c = '\x08' then line.dropLast else if c = '\r' then line else keepChar line c

/-- What `mon_check` makes of the line: it keeps a backspace in the place of what that deletes. -/
def monLine (line : List Char) (c : Char) : List Char :=
  if c = '\x08' then keepChar line.dropLast c else if c = '\r' then line else keepChar line c

def MonInput.byte (input : MonInput) : Option Char :=
  match input.read with
  | .char c _ => some c
  | _ => none

def received (inputs : List MonInput) : List Char := inputs.filterMap MonInput.byte

def monRun (mon : Mon) (inputs : List MonInput) : Mon := inputs.foldl (fun mon input => (monCheck mon input).2) mon

/-- The script this `mon_check` gives to `picolEval`, if it gives one: the string in `ibuf`. -/
def monScript (mon : Mon) (input : MonInput) : Option (List Char) :=
  if input.byte = some '\n' then some (stringOf '\x00' IBUF_SIZE (monCheck mon input).2.ibuf) else none

/-- The line so far. A prompt that is due empties it. -/
def Mon.line (mon : Mon) : List Char := if mon.pendPrompt then [] else lineOf mon.ibuf mon.ibufIndex

/-- A console is connected, and the prompt is due or has just been printed. -/
structure AtPrompt (mon : Mon) : Prop where
  connected : mon.connected = true
  prompt : mon.pendPrompt = true ∨ mon.ibufIndex = 0

/-- What `mon_check` reads before a line ends: it stays connected and no byte is a newline or NUL. -/
structure Typing (inputs : List MonInput) : Prop where
  stays : ∀ input ∈ inputs, input.read ≠ .closed
  plain : ∀ c ∈ received inputs, c ≠ '\n' ∧ c ≠ '\x00'

/-- The line is the fold of its bytes, and the index is inside `ibuf` after each, the newline too. -/
structure LineEdited (mon : Mon) (inputs : List MonInput) (newline : MonInput) : Prop where
  bounded : ∀ before, before ≠ [] → before <+: inputs ++ [newline] → (monRun mon before).ibufIndex ≤ IBUF_SIZE - 1
  script : monScript (monRun mon inputs) newline = some ((received inputs).foldl editLine [])

variable {mon : Mon} {input newline : MonInput} {inputs : List MonInput} {line : List Char} {c : Char}

theorem keepChar_length (bound : line.length ≤ IBUF_SIZE - 1) (c : Char) :
    (keepChar line c).length ≤ IBUF_SIZE - 1 := by
  unfold keepChar
  split
  · exact bound
  · rw [List.length_append, List.length_singleton]
    omega

theorem monLine_length (bound : line.length ≤ IBUF_SIZE - 1) (c : Char) :
    (monLine line c).length ≤ IBUF_SIZE - 1 := by
  have shorter : line.dropLast.length ≤ IBUF_SIZE - 1 := by
    rw [List.length_dropLast]
    omega
  unfold monLine
  split
  · exact keepChar_length shorter c
  · split
    · exact bound
    · exact keepChar_length bound c

structure Mon.Holds (mon : Mon) (line : List Char) : Prop where
  connected : mon.connected = true
  due : mon.pendPrompt = false
  line : lineOf mon.ibuf mon.ibufIndex = line

theorem Mon.Holds.index (holds : mon.Holds line) : mon.ibufIndex = line.length := by
  rw [← holds.line, length_lineOf]

theorem Mon.Holds.line_eq (holds : mon.Holds line) : mon.line = line := by
  rw [Mon.line, holds.due, if_neg Bool.false_ne_true, holds.line]

theorem Mon.Holds.store (holds : mon.Holds line) (c : Char) : (monStore mon c).Holds (keepChar line c) := by
  unfold monStore keepChar
  rw [holds.index]
  split
  · exact holds
  · refine ⟨holds.connected, holds.due, ?_⟩
    rw [← holds.line, length_lineOf]
    exact lineOf_store mon.ibuf mon.ibufIndex c

theorem Mon.Holds.back (holds : mon.Holds line) :
    (if mon.ibufIndex ≠ 0 then { mon with ibufIndex := mon.ibufIndex - 1 } else mon).Holds line.dropLast := by
  have shorter : lineOf mon.ibuf (mon.ibufIndex - 1) = line.dropLast := by rw [lineOf_pred, holds.line]
  split
  · exact ⟨holds.connected, holds.due, shorter⟩
  · rename_i empty
    rw [not_not] at empty
    rw [empty] at shorter
    exact ⟨holds.connected, holds.due, empty ▸ shorter⟩

theorem Mon.Holds.char (holds : mon.Holds line) (more : c ≠ '\n') (ran : List MonCommand) :
    (monChar mon c ran).2.Holds (monLine line c) := by
  simp only [monChar, monLine, if_neg more]
  split
  · exact holds.back.store c
  · split
    · exact holds
    · exact holds.store c

theorem handleConnect_connected (connected : mon.connected = true) : mon.handleConnect = mon := by
  rw [Mon.handleConnect, if_pos connected]

/-- A connected `mon_check` prints the prompt that is due, and goes on with the line it has. -/
theorem monCheck_connected (connected : mon.connected = true) (input : MonInput) :
    ∃ mon' : Mon, mon'.Holds mon.line ∧
      (input.byte = none → input.read ≠ .closed → (monCheck mon input).2 = mon') ∧
      ∀ c ran, input.read = .char c ran → monCheck mon input = monChar mon' c ran := by
  generalize same : (if mon.pendPrompt then
    { monPrompt mon input.connects with pendPrompt := false } else mon) = mon'
  have holds : mon'.Holds mon.line := by
    rw [← same]
    split
    · rename_i due
      rw [monPrompt, handleConnect_connected connected, ite_self, Mon.line, if_pos due]
      exact ⟨connected, rfl, rfl⟩
    · rename_i printed
      rw [Mon.line, if_neg printed]
      exact ⟨connected, Bool.not_eq_true _ ▸ printed, rfl⟩
  have plugged := handleConnect_connected holds.connected
  refine ⟨mon', holds, fun silent stays => ?_, fun c ran read => ?_⟩
  · cases read : input.read with
    | absent => simp only [monCheck, same, read]
    | empty => simp only [monCheck, same, read, plugged]
    | closed => exact absurd read stays
    | char c ran =>
      rw [MonInput.byte, read] at silent
      cases silent
  · simp only [monCheck, same, read, plugged]

theorem monCheck_line (connected : mon.connected = true) (stays : input.read ≠ .closed)
    (more : input.byte ≠ some '\n') :
    (monCheck mon input).2.Holds (input.byte.toList.foldl monLine mon.line) := by
  obtain ⟨mon', holds, silent, char⟩ := monCheck_connected connected input
  cases read : input.read with
  | closed => exact absurd read stays
  | char c ran =>
    have byte : input.byte = some c := by rw [MonInput.byte, read]
    rw [byte] at more ⊢
    rw [char c ran read]
    exact holds.char (fun newline => more (congrArg some newline)) ran
  | absent =>
    have byte : input.byte = none := by rw [MonInput.byte, read]
    rw [byte, silent byte stays]
    exact holds
  | empty =>
    have byte : input.byte = none := by rw [MonInput.byte, read]
    rw [byte, silent byte stays]
    exact holds

theorem monCheck_newline (connected : mon.connected = true) (ended : input.byte = some '\n') :
    ∃ mon' : Mon, mon'.Holds mon.line ∧ (monCheck mon input).2.ibufIndex = mon'.ibufIndex ∧
      (monCheck mon input).2.ibuf = Function.update mon'.ibuf mon'.ibufIndex '\x00' := by
  obtain ⟨mon', holds, _, char⟩ := monCheck_connected connected input
  cases read : input.read with
  | absent | empty | closed =>
    rw [MonInput.byte, read] at ended
    cases ended
  | char c ran =>
    rw [MonInput.byte, read] at ended
    obtain rfl := Option.some.inj ended
    exact ⟨mon', holds, by rw [char _ ran read]; rfl, by rw [char _ ran read]; rfl⟩

theorem monRun_snoc (mon : Mon) (inputs : List MonInput) (input : MonInput) :
    monRun mon (inputs ++ [input]) = (monCheck (monRun mon inputs) input).2 :=
  List.foldl_concat _ _ _ _

theorem received_snoc (inputs : List MonInput) (input : MonInput) :
    received (inputs ++ [input]) = received inputs ++ input.byte.toList := by
  rw [received, List.filterMap_append]
  cases byte : input.byte <;> simp [byte, received]

theorem Typing.of_prefix {before : List MonInput} (typing : Typing inputs) (within : before <+: inputs) :
    Typing before :=
  ⟨fun input member => typing.stays input (within.subset member),
    fun c member => typing.plain c ((within.sublist.filterMap _).subset member)⟩

theorem AtPrompt.line_nil (prompt : AtPrompt mon) : mon.line = [] := by
  unfold Mon.line
  split
  · rfl
  · rename_i printed
    rw [prompt.prompt.resolve_left printed]
    rfl

/-- After any bytes of a line `ibuf` holds the fold of them. -/
theorem monRun_line (prompt : AtPrompt mon) (typing : Typing inputs) :
    (monRun mon inputs).connected = true ∧ (monRun mon inputs).line = (received inputs).foldl monLine [] ∧
      (inputs ≠ [] → (monRun mon inputs).Holds ((received inputs).foldl monLine [])) := by
  induction inputs using List.reverseRecOn with
  | nil => exact ⟨prompt.connected, prompt.line_nil, fun some => absurd rfl some⟩
  | append_singleton inputs input ih =>
    obtain ⟨connected, line, _⟩ := ih (typing.of_prefix (List.prefix_append _ _))
    have stays := typing.stays input (by simp)
    have more : input.byte ≠ some '\n' := by
      intro newline
      exact (typing.plain '\n' (by rw [received_snoc, newline]; simp)).1 rfl
    have holds := monCheck_line connected stays more
    rw [line, ← List.foldl_append, ← received_snoc, ← monRun_snoc] at holds
    exact ⟨holds.connected, holds.line_eq, fun _ => holds⟩

theorem foldl_monLine_length (bytes : List Char) : (bytes.foldl monLine []).length ≤ IBUF_SIZE - 1 := by
  induction bytes using List.reverseRecOn with
  | nil => exact Nat.zero_le _
  | append_singleton bytes c ih =>
    rw [List.foldl_concat]
    exact monLine_length ih c

theorem mem_keepChar {b : Char} (member : b ∈ keepChar line c) : b ∈ line ∨ b = c := by
  unfold keepChar at member
  split at member
  · exact .inl member
  · rcases List.mem_append.mp member with member | member
    · exact .inl member
    · exact .inr (List.mem_singleton.mp member)

theorem foldl_monLine_mem {bytes : List Char} {b : Char} (member : b ∈ bytes.foldl monLine []) : b ∈ bytes := by
  induction bytes using List.reverseRecOn with
  | nil => exact member
  | append_singleton bytes c ih =>
    rw [List.foldl_concat] at member
    have kept : b ∈ bytes.foldl monLine [] ∨ b = c := by
      unfold monLine at member
      split at member
      · exact (mem_keepChar member).imp_left List.mem_of_mem_dropLast
      · split at member
        · exact .inl member
        · exact mem_keepChar member
    rcases kept with older | rfl
    · exact List.mem_append_left _ (ih older)
    · simp

/-- Without a backspace there is nothing the two lines disagree on. -/
theorem foldl_monLine_eq {bytes : List Char} (forward : '\x08' ∉ bytes) :
    bytes.foldl monLine [] = bytes.foldl editLine [] := by
  induction bytes using List.reverseRecOn with
  | nil => rfl
  | append_singleton bytes c ih =>
    rw [List.mem_append, not_or] at forward
    have other : c ≠ '\x08' := fun same => forward.2 (List.mem_singleton.mpr same.symm)
    rw [List.foldl_concat, List.foldl_concat, ih forward.1, monLine, editLine, if_neg other, if_neg other]

theorem foldl_editLine_forward (bytes : List Char) : '\x08' ∉ bytes.foldl editLine [] := by
  induction bytes using List.reverseRecOn with
  | nil => exact List.not_mem_nil
  | append_singleton bytes c ih =>
    rw [List.foldl_concat, editLine]
    split
    · exact fun member => ih (List.mem_of_mem_dropLast member)
    · rename_i other
      split
      · exact ih
      · intro member
        rcases mem_keepChar member with older | same
        · exact ih older
        · exact other same.symm

theorem mem_keepChar_of_mem (c : Char) {b : Char} (member : b ∈ line) : b ∈ keepChar line c := by
  unfold keepChar
  split
  · exact member
  · exact List.mem_append_left _ member

/-- Once a backspace is kept one stays: only another one takes its place. -/
theorem foldl_monLine_backspace {bytes : List Char} (back : '\x08' ∈ bytes) : '\x08' ∈ bytes.foldl monLine [] := by
  induction bytes using List.reverseRecOn with
  | nil => cases back
  | append_singleton bytes c ih =>
    have room : (bytes.foldl monLine []).dropLast.length ≠ IBUF_SIZE - 1 := by
      have bound := foldl_monLine_length bytes
      have some : 0 < IBUF_SIZE - 1 := by decide
      rw [List.length_dropLast]
      omega
    rw [List.foldl_concat, monLine]
    split
    · rename_i same
      rw [keepChar, if_neg room, same]
      simp
    · rename_i other
      have older : '\x08' ∈ bytes := by
        rcases List.mem_append.mp back with older | last
        · exact older
        · exact absurd (List.mem_singleton.mp last).symm other
      split
      · exact ih older
      · exact mem_keepChar_of_mem c (ih older)

theorem monScript_line (prompt : AtPrompt mon) (typing : Typing inputs) (ended : newline.byte = some '\n') :
    monScript (monRun mon inputs) newline = some ((received inputs).foldl monLine []) := by
  obtain ⟨connected, line, _⟩ := monRun_line prompt typing
  obtain ⟨mon', holds, _, stored⟩ := monCheck_newline connected ended
  rw [line] at holds
  have inside : mon'.ibufIndex < IBUF_SIZE := by
    have bound := foldl_monLine_length (received inputs)
    have size : 0 < IBUF_SIZE := by decide
    rw [holds.index]
    omega
  have plain : ∀ a ∈ lineOf mon'.ibuf mon'.ibufIndex, a ≠ '\x00' := by
    intro a member
    rw [holds.line] at member
    exact (typing.plain a (foldl_monLine_mem member)).2
  rw [monScript, if_pos ended, stored, stringOf_terminated inside plain, holds.line]

theorem monRun_bounded (prompt : AtPrompt mon) (typing : Typing inputs) (ended : newline.byte = some '\n')
    {before : List MonInput} (some : before ≠ []) (within : before <+: inputs ++ [newline]) :
    (monRun mon before).ibufIndex ≤ IBUF_SIZE - 1 := by
  rcases List.prefix_concat_iff.mp within with rfl | within
  · obtain ⟨connected, line, _⟩ := monRun_line prompt typing
    obtain ⟨mon', holds, index, _⟩ := monCheck_newline connected ended
    rw [monRun_snoc, index, holds.index, line]
    exact foldl_monLine_length _
  · obtain ⟨_, _, holds⟩ := monRun_line prompt (typing.of_prefix within)
    rw [(holds some).index]
    exact foldl_monLine_length _

/-- The script of a line is what its bytes edit just when no backspace is among them. -/
theorem line_edited_iff (prompt : AtPrompt mon) (typing : Typing inputs) (ended : newline.byte = some '\n') :
    LineEdited mon inputs newline ↔ '\x08' ∉ received inputs := by
  have script := monScript_line prompt typing ended
  constructor
  · intro edited back
    have same := Option.some.inj (script.symm.trans edited.script)
    have kept := foldl_monLine_backspace back
    rw [same] at kept
    exact foldl_editLine_forward _ kept
  · intro forward
    constructor
    · exact fun before some within => monRun_bounded prompt typing ended some within
    · rw [script, foldl_monLine_eq forward]

def connectedMon : Mon := ⟨true, fun _ => '\x00', 0, .none, false, true⟩

def typed (c : Char) : MonInput := ⟨false, .char c []⟩

theorem connected_prompt : AtPrompt connectedMon := ⟨rfl, .inl rfl⟩

theorem typed_typing (bytes : List Char) (plain : ∀ c ∈ bytes, c ≠ '\n' ∧ c ≠ '\x00') :
    received (bytes.map typed) = bytes ∧ Typing (bytes.map typed) := by
  have same : received (bytes.map typed) = bytes := by
    rw [received, List.filterMap_map]
    exact List.filterMap_some
  refine ⟨same, ?_, by rwa [same]⟩
  intro input member
  obtain ⟨c, _, rfl⟩ := List.mem_map.mp member
  simp [typed]

theorem quit_edited : LineEdited connectedMon (['q', 'u', 'i', 't'].map typed) (typed '\n') := by
  obtain ⟨same, typing⟩ := typed_typing ['q', 'u', 'i', 't'] (by simp)
  apply (line_edited_iff connected_prompt typing rfl).mpr
  rw [same]
  simp

/-- The backspace is in the script, in place of the character that it deletes. -/
theorem backspace_kept : ¬ ∀ (mon : Mon) (inputs : List MonInput) (newline : MonInput), AtPrompt mon → Typing inputs →
    newline.byte = some '\n' → LineEdited mon inputs newline := by
  intro always
  obtain ⟨same, typing⟩ := typed_typing ['a', '\x08'] (by simp)
  have edited := (always _ _ (typed '\n') connected_prompt typing rfl).script
  rw [monScript_line connected_prompt typing rfl, same] at edited
  have kept : ['a', '\x08'].foldl monLine [] = ['\x08'] := by decide
  have deleted : ['a', '\x08'].foldl editLine [] = [] := by decide
  rw [kept, deleted] at edited
  cases edited

end ToyHv
