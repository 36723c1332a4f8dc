import VortexMQ.Network.Connection
import VortexMQ.Protocol.BufferedReader

/-!
# The command-line client

`cmd/vortexmq-cli` writes a command to a buffered writer, and then it reads the reply. There are
three ways in which it does that: the reply to `AUTH` with the reader for commands, and every other
one with a buffered reader that is made for it, to the end of a line; behind a line that announces a
bulk string it calls `Read` once. What such a reader has received and not returned is lost.

Here the client is on its own. It writes the commands that it is given, in their order, and it reads
only after a command. It never flushes: what it has written leaves the buffer only when there is no
more room in it. So the end of every command is still with the client when it waits for the reply.
-/

namespace VortexMQ

namespace Text

/-- `strings.TrimSpace`: the text from the beginning of its first field to the end of the last. -/
def trimSpace (s : Bytes) : Bytes :=
  match (fieldSpans s).head?, (fieldSpans s).getLast? with
  | some first, some last => slice s (first.1, last.2)
  | _, _ => []

/-- `strings.EqualFold` with a word in ASCII. No character outside ASCII folds to a letter of the
words for which it is used here. -/
def equalFold (s word : Bytes) : Bool := s.map upperByte = word.map upperByte

/-- `fmt.Sscanf` with the format `$%d`, into a variable that is zero. -/
def scanLength (s : Bytes) : ℤ :=
  let text := s.tail.dropWhile fun b ↦ isSpaceByte b && b ≠ 10
  let sign := text.takeWhile fun b ↦ b = 43 || b = 45
  let number := sign.take 1 ++ (text.drop (sign.take 1).length).takeWhile fun b ↦ Decimal.IsDigit b
  if (atoi number).2 then (atoi number).1 else 0

end Text

/-! ## The program -/

namespace Cli

/-- What the client is given: the flag for the password, the arguments behind the flags, and the
lines that it scans from its standard input. -/
structure Input where
  password : Bytes
  args : List Bytes
  lines : List Bytes

def isQuit (line : Bytes) : Bool :=
  Text.equalFold line (bytesOf "exit") || Text.equalFold line (bytesOf "quit")

/-- The commands in the lines at the prompt. -/
def commandsOfLines : List Bytes → List (List Bytes)
  | [] => []
  | text :: lines =>
      if Text.trimSpace text = [] then commandsOfLines lines
      else if isQuit (Text.trimSpace text) then []
      else Text.fields (Text.trimSpace text) :: commandsOfLines lines

/-- The commands behind the authentication: the arguments, or those at the prompt. -/
def Input.further (input : Input) : List (List Bytes) :=
  if input.args = [] then commandsOfLines input.lines else [input.args]

/-- All commands that the client is asked to send, the one for the authentication included. -/
def Input.commands (input : Input) : List (List Bytes) :=
  if input.password = [] then input.further
  else [bytesOf "AUTH", input.password] :: input.further

/-- The size of the buffer of `bufio.NewReader`. -/
def bufferSize : ℕ := 4096

/-- A `bufio.Reader` that is made for one reply: the bytes that it has set aside within
`ReadString`, and the unread bytes in its buffer. -/
structure LineReader where
  full : Bytes
  buf : Bytes

def LineReader.new : LineReader := ⟨[], []⟩

/-- Where the program is. -/
inductive Phase where
  | start
  /-- In `ReadCommand`, after `AUTH`. -/
  | auth (reader : Resp.Reader)
  /-- Behind the authentication. -/
  | ready
  /-- In `ReadString`, after the command in the arguments or after one at the prompt. -/
  | line (interactive : Bool) (rd : LineReader)
  /-- In `Read`, for a bulk string of this length. -/
  | payload (length : ℕ) (rd : LineReader)
  | prompt
  | done

namespace Phase

/-- A reply is to come. -/
def Waiting : Phase → Prop
  | .auth _ | .line .. | .payload .. => True
  | .start | .ready | .prompt | .done => False

instance (phase : Phase) : Decidable phase.Waiting :=
  match phase with
  | .auth _ | .line .. | .payload .. => inferInstanceAs (Decidable True)
  | .start | .ready | .prompt | .done => inferInstanceAs (Decidable False)

def isDone : Phase → Bool
  | .done => true
  | _ => false

end Phase

end Cli

open Cli (Phase LineReader)

/-- The client. -/
structure Client where
  input : Cli.Input
  phase : Phase
  writer : Writer
  /-- The bytes that have been read from the connection, by whichever reader. -/
  received : Bytes
  /-- The commands that have been written. -/
  issued : List (List Bytes)
  /-- How many of them have been answered, as far as the client can tell. -/
  answered : ℕ
  /-- The replies that have been printed. -/
  printed : List Bytes

namespace Client

def start (input : Cli.Input) : Client := ⟨input, .start, .new, [], [], 0, []⟩

variable (c : Client)

def issue (cmd : List Bytes) (phase : Phase) : Client :=
  { c with
    writer := c.writer.writeArray (some (cmd.map some))
    issued := c.issued ++ [cmd]
    phase := phase }

def answer (text : Bytes) (phase : Phase) : Client :=
  { c with answered := c.answered + 1, printed := c.printed ++ [text], phase := phase }

/-- Print a bulk string. The payload is zero where `Read` has not filled it. -/
def answerBulk (length : ℕ) (read : Bytes) : Client :=
  c.answer ((read ++ List.replicate (length + 2 - read.length) 0).take length ++ [10]) .prompt

/-- The rest of the loop's body, after `ReadString`. -/
def handleLine (interactive : Bool) (respLine rest : Bytes) : Client :=
  if interactive = false then c.answer respLine .done
  else if respLine.head? = some 36 then
    if 0 ≤ Text.scanLength respLine then
      { c with phase := .payload (Text.scanLength respLine).toNat ⟨[], rest⟩ }
    else c.answer (bytesOf "(nil)\n") .prompt
  else c.answer respLine .prompt

/-- Go on as far as the next `Read` of the connection, or the next line of the input. -/
def go (upper : Char → Char) : Option Client :=
  match c.phase with
  | .start =>
      if c.input.password = [] then some { c with phase := .ready }
      else some (c.issue [bytesOf "AUTH", c.input.password] (.auth .new))
  | .auth reader =>
      match reader.phase with
      | .failed .connection => some { c with phase := .ready }
      | .command .. | .failed _ => some { c with answered := c.answered + 1, phase := .ready }
      | _ => ((reader.parse upper).or reader.fill).map fun r ↦ { c with phase := .auth r }
  | .ready =>
      if c.input.args = [] then some { c with phase := .prompt }
      else some (c.issue c.input.args (.line false .new))
  | .line interactive rd =>
      if 10 ∈ rd.buf then
        some (c.handleLine interactive (rd.full ++ Stream.untilLF rd.buf ++ [10])
          (rd.buf.drop ((Stream.untilLF rd.buf).length + 1)))
      else if Cli.bufferSize ≤ rd.buf.length then
        some { c with phase := .line interactive ⟨rd.full ++ rd.buf, []⟩ }
      else none
  | .payload length rd =>
      if rd.buf = [] then none else some (c.answerBulk length (rd.buf.take (length + 2)))
  | .prompt =>
      match c.input.lines with
      | [] => some { c with phase := .done }
      | text :: lines =>
          let c := { c with input := { c.input with lines := lines } }
          if Text.trimSpace text = [] then some c
          else if Cli.isQuit (Text.trimSpace text) then some { c with phase := .done }
          else some (c.issue (Text.fields (Text.trimSpace text)) (.line true .new))
  | .done => none

/-- A `Read` of the connection has returned bytes. -/
def receive (data : Bytes) : Option Client :=
  let c' := { c with received := c.received ++ data }
  match c.phase with
  | .auth reader => (reader.receive data).map fun r ↦ { c' with phase := .auth r }
  | .line interactive rd =>
      if 10 ∉ rd.buf ∧ rd.buf.length < Cli.bufferSize ∧
          rd.buf.length + data.length ≤ Cli.bufferSize then
        some { c' with phase := .line interactive ⟨rd.full, rd.buf ++ data⟩ }
      else none
  | .payload length rd =>
      if rd.buf ≠ [] then none
      else if Cli.bufferSize ≤ length + 2 then
        -- so much is read without the buffer
        if data.length ≤ length + 2 then some (c'.answerBulk length data) else none
      else if data.length ≤ Cli.bufferSize then
        some { c' with phase := .payload length ⟨[], data⟩ }
      else none
  | .start | .ready | .prompt | .done => none

/-- A `Read` of the connection has failed. -/
def eof (upper : Char → Char) : Option Client :=
  match c.phase with
  | .auth reader => (reader.hangup upper).map fun r ↦ { c with phase := .auth r }
  | .line interactive rd =>
      if 10 ∉ rd.buf ∧ rd.buf.length < Cli.bufferSize then
        -- the error is ignored after the command in the arguments
        if interactive = false then
          some { c with printed := c.printed ++ [rd.full ++ rd.buf], phase := .done }
        else some { c with phase := .done }
      else none
  | .payload length rd => if rd.buf = [] then some (c.answerBulk length []) else none
  | .start | .ready | .prompt | .done => none

end Client

/-! ## The commands of the client -/

namespace Client

variable {c c' : Client} {upper : Char → Char} {data : Bytes}

/-- The commands that are still to be written. -/
def pending (c : Client) : List (List Bytes) :=
  match c.phase with
  | .start => c.input.commands
  | .auth _ | .ready => c.input.further
  | .line true _ | .payload .. | .prompt => Cli.commandsOfLines c.input.lines
  | .line false _ | .done => []

/-- What a step of the client does: it writes the commands in their order, and it reads only after a
command. -/
structure Moves (c c' : Client) : Prop where
  commands : c'.issued ++ c'.pending <+: c.issued ++ c.pending
  issued : c.issued <+: c'.issued
  waiting : c'.phase.Waiting → c.phase.Waiting ∨ c'.issued ≠ []
  idle : ¬c.phase.Waiting →
    c'.received = c.received ∧ c'.answered = c.answered ∧ c'.printed = c.printed

theorem Moves.of_waiting (hwait : c.phase.Waiting) (hissued : c'.issued = c.issued)
    (hpending : c'.pending <+: c.pending) : c.Moves c' where
  commands := by
    rw [hissued]
    exact (List.prefix_append_right_inj _).mpr hpending
  issued := hissued ▸ List.prefix_rfl
  waiting _ := Or.inl hwait
  idle hidle := absurd hwait hidle

theorem Moves.of_idle (hwait : ¬c'.phase.Waiting) (hissued : c'.issued = c.issued)
    (hreceived : c'.received = c.received) (hanswered : c'.answered = c.answered)
    (hprinted : c'.printed = c.printed) (hpending : c'.pending <+: c.pending) : c.Moves c' where
  commands := by
    rw [hissued]
    exact (List.prefix_append_right_inj _).mpr hpending
  issued := hissued ▸ List.prefix_rfl
  waiting h := absurd h hwait
  idle _ := ⟨hreceived, hanswered, hprinted⟩

theorem Moves.of_issue {cmd : List Bytes} (hissued : c'.issued = c.issued ++ [cmd])
    (hreceived : c'.received = c.received) (hanswered : c'.answered = c.answered)
    (hprinted : c'.printed = c.printed) (hpending : c.pending = cmd :: c'.pending) :
    c.Moves c' where
  commands := by
    rw [hpending, hissued, List.append_assoc]
    exact List.prefix_rfl
  issued := hissued ▸ List.prefix_append _ _
  waiting _ := Or.inr (hissued ▸ List.append_ne_nil_of_right_ne_nil _ (List.cons_ne_nil _ _))
  idle _ := ⟨hreceived, hanswered, hprinted⟩

private theorem moves_handleLine {interactive : Bool} {rd : LineReader} (respLine rest : Bytes)
    (hphase : c.phase = .line interactive rd) :
    c.Moves (c.handleLine interactive respLine rest) := by
  have hwait : c.phase.Waiting := hphase ▸ trivial
  cases interactive with
  | false => exact .of_waiting hwait rfl List.nil_prefix
  | true =>
    have hpending : Cli.commandsOfLines c.input.lines <+: c.pending := by
      rw [pending, hphase]
    rw [handleLine, if_neg Bool.true_eq_false.mp]
    split
    · split
      · exact .of_waiting hwait rfl hpending
      · exact .of_waiting hwait rfl hpending
    · exact .of_waiting hwait rfl hpending

/-- **The client goes on.** -/
theorem moves_go (h : c.go upper = some c') : c.Moves c' := by
  cases hphase : c.phase with
  | start =>
    simp only [go, hphase] at h
    have hpending : c.pending = c.input.commands := by rw [pending, hphase]
    split at h
    · rename_i hpassword
      obtain rfl := Option.some_inj.mp h
      refine .of_idle id rfl rfl rfl rfl ?_
      rw [hpending, Cli.Input.commands, if_pos hpassword]
      exact List.prefix_rfl
    · rename_i hpassword
      obtain rfl := Option.some_inj.mp h
      refine .of_issue rfl rfl rfl rfl ?_
      rw [hpending, Cli.Input.commands, if_neg hpassword]
      rfl
  | auth reader =>
    have hwait : c.phase.Waiting := hphase ▸ trivial
    have hpending : c.input.further <+: c.pending := by rw [pending, hphase]
    simp only [go, hphase] at h
    split at h
    · obtain rfl := Option.some_inj.mp h
      exact .of_waiting hwait rfl hpending
    · obtain rfl := Option.some_inj.mp h
      exact .of_waiting hwait rfl hpending
    · obtain rfl := Option.some_inj.mp h
      exact .of_waiting hwait rfl hpending
    · obtain ⟨r, -, rfl⟩ := Option.map_eq_some_iff.mp h
      exact .of_waiting hwait rfl hpending
  | ready =>
    simp only [go, hphase] at h
    have hpending : c.pending = c.input.further := by rw [pending, hphase]
    split at h
    · rename_i hargs
      obtain rfl := Option.some_inj.mp h
      refine .of_idle id rfl rfl rfl rfl ?_
      rw [hpending, Cli.Input.further, if_pos hargs]
      exact List.prefix_rfl
    · rename_i hargs
      obtain rfl := Option.some_inj.mp h
      refine .of_issue rfl rfl rfl rfl ?_
      rw [hpending, Cli.Input.further, if_neg hargs]
      rfl
  | line interactive rd =>
    have hwait : c.phase.Waiting := hphase ▸ trivial
    simp only [go, hphase] at h
    split at h
    · obtain rfl := Option.some_inj.mp h
      exact moves_handleLine _ _ hphase
    · split at h
      · obtain rfl := Option.some_inj.mp h
        refine .of_waiting hwait rfl ?_
        rw [pending, pending, hphase]
        cases interactive <;> exact List.prefix_rfl
      · cases h
  | payload length rd =>
    have hpending : Cli.commandsOfLines c.input.lines <+: c.pending := by rw [pending, hphase]
    simp only [go, hphase] at h
    split at h
    · cases h
    · obtain rfl := Option.some_inj.mp h
      exact .of_waiting (hphase ▸ trivial) rfl hpending
  | prompt =>
    have hpending : c.pending = Cli.commandsOfLines c.input.lines := by rw [pending, hphase]
    simp only [go, hphase] at h
    split at h
    · obtain rfl := Option.some_inj.mp h
      exact .of_idle id rfl rfl rfl rfl List.nil_prefix
    · rename_i text lines hlines
      rw [hlines, Cli.commandsOfLines] at hpending
      split at h
      · rename_i hblank
        obtain rfl := Option.some_inj.mp h
        refine .of_idle id rfl rfl rfl rfl ?_
        rw [hpending, if_pos hblank]
        exact List.prefix_rfl
      · rename_i hblank
        rw [if_neg hblank] at hpending
        split at h
        · obtain rfl := Option.some_inj.mp h
          exact .of_idle id rfl rfl rfl rfl List.nil_prefix
        · rename_i hquit
          rw [if_neg hquit] at hpending
          obtain rfl := Option.some_inj.mp h
          exact .of_issue rfl rfl rfl rfl hpending
  | done =>
    simp only [go, hphase] at h
    cases h

/-- **Bytes arrive.** -/
theorem moves_receive (h : c.receive data = some c') : c.Moves c' := by
  cases hphase : c.phase with
  | auth reader =>
    have hpending : c.input.further <+: c.pending := by rw [pending, hphase]
    simp only [receive, hphase] at h
    obtain ⟨r, -, rfl⟩ := Option.map_eq_some_iff.mp h
    exact .of_waiting (hphase ▸ trivial) rfl hpending
  | line interactive rd =>
    simp only [receive, hphase] at h
    split at h
    · obtain rfl := Option.some_inj.mp h
      refine .of_waiting (hphase ▸ trivial) rfl ?_
      rw [pending, pending, hphase]
      cases interactive <;> exact List.prefix_rfl
    · cases h
  | payload length rd =>
    have hwait : c.phase.Waiting := hphase ▸ trivial
    have hpending : Cli.commandsOfLines c.input.lines <+: c.pending := by rw [pending, hphase]
    simp only [receive, hphase] at h
    split at h
    · cases h
    · split at h
      · split at h
        · obtain rfl := Option.some_inj.mp h
          exact .of_waiting hwait rfl hpending
        · cases h
      · split at h
        · obtain rfl := Option.some_inj.mp h
          exact .of_waiting hwait rfl hpending
        · cases h
  | start | ready | prompt | done =>
    simp only [receive, hphase] at h
    cases h

/-- **The connection ends.** -/
theorem moves_eof (h : c.eof upper = some c') : c.Moves c' := by
  cases hphase : c.phase with
  | auth reader =>
    have hpending : c.input.further <+: c.pending := by rw [pending, hphase]
    simp only [eof, hphase] at h
    obtain ⟨r, -, rfl⟩ := Option.map_eq_some_iff.mp h
    exact .of_waiting (hphase ▸ trivial) rfl hpending
  | line interactive rd =>
    have hwait : c.phase.Waiting := hphase ▸ trivial
    simp only [eof, hphase] at h
    split at h
    · split at h
      · obtain rfl := Option.some_inj.mp h
        exact .of_waiting hwait rfl List.nil_prefix
      · obtain rfl := Option.some_inj.mp h
        exact .of_waiting hwait rfl List.nil_prefix
    · cases h
  | payload length rd =>
    have hpending : Cli.commandsOfLines c.input.lines <+: c.pending := by rw [pending, hphase]
    simp only [eof, hphase] at h
    split at h
    · obtain rfl := Option.some_inj.mp h
      exact .of_waiting (hphase ▸ trivial) rfl hpending
    · cases h
  | start | ready | prompt | done =>
    simp only [eof, hphase] at h
    cases h

/-- The client writes the commands that it has been given, in their order, and reads nothing before
the first one. -/
structure Follows (input : Cli.Input) (c : Client) : Prop where
  commands : c.issued ++ c.pending <+: input.commands
  idle : c.issued = [] →
    ¬c.phase.Waiting ∧ c.received = [] ∧ c.answered = 0 ∧ c.printed = []

theorem follows_start (input : Cli.Input) : Follows input (start input) :=
  ⟨List.prefix_rfl, fun _ ↦ ⟨id, rfl, rfl, rfl⟩⟩

theorem Moves.follows {input : Cli.Input} (h : c.Moves c') (hc : Follows input c) :
    Follows input c' := by
  refine ⟨h.commands.trans hc.commands, fun hissued ↦ ?_⟩
  obtain ⟨hwait, hreceived, hanswered, hprinted⟩ :=
    hc.idle (List.prefix_nil.mp (hissued ▸ h.issued))
  obtain ⟨hreceived', hanswered', hprinted'⟩ := h.idle hwait
  refine ⟨fun hwait' ↦ ?_, hreceived'.trans hreceived, hanswered'.trans hanswered,
    hprinted'.trans hprinted⟩
  exact (h.waiting hwait').elim hwait fun hne ↦ hne hissued

end Client

/-! ## The first command -/

def Cli.Phase.Idle : Phase → Prop
  | .auth reader => reader.Idle
  | .line _ rd => rd = .new
  | _ => False

namespace Client

variable {c c' : Client} {cmd : List Bytes}

/-- How much the client may do before its first command. -/
def stage (c : Client) : ℕ :=
  match c.phase with
  | .start => c.input.lines.length + 3
  | .ready => c.input.lines.length + 2
  | .prompt => c.input.lines.length + 1
  | _ => 0

/-- The client is on the way to its first command. -/
structure Before (cmd : List Bytes) (c : Client) : Prop where
  issued : c.issued = []
  writer : c.writer = .new
  received : c.received = []
  answered : c.answered = 0
  waiting : ¬c.phase.Waiting
  pending : ∃ more, c.pending = cmd :: more

/-- The client has written its first command, and nothing has arrived since. -/
structure After (cmd : List Bytes) (c : Client) : Prop where
  issued : c.issued = [cmd]
  writer : c.writer = Writer.new.writeArray (some (cmd.map some))
  received : c.received = []
  answered : c.answered = 0
  idle : c.phase.Idle

theorem After.waiting (h : c.After cmd) : c.phase.Waiting := by
  have hidle := h.idle
  cases hphase : c.phase with
  | auth reader => exact trivial
  | line interactive rd => exact trivial
  | _ =>
    rw [hphase] at hidle
    exact hidle.elim

theorem before_start {input : Cli.Input} {more : List (List Bytes)}
    (h : input.commands = cmd :: more) : (start input).Before cmd :=
  ⟨rfl, rfl, rfl, rfl, id, more, h⟩

private theorem after_issue (hissued : c.issued = []) (hwriter : c.writer = .new)
    (hreceived : c.received = []) (hanswered : c.answered = 0) {phase : Phase}
    (hphase : phase.Idle) : (c.issue cmd phase).After cmd where
  issued := by
    rw [issue, hissued]
    rfl
  writer := by rw [issue, hwriter]
  received := hreceived
  answered := hanswered
  idle := hphase

theorem Before.go (h : c.Before cmd) (upper : Char → Char) : ∃ c', c.go upper = some c' ∧
    (c'.Before cmd ∧ c'.stage < c.stage ∨ c'.After cmd) := by
  obtain ⟨more, hpending⟩ := h.pending
  have hwait := h.waiting
  cases hphase : c.phase with
  | start =>
    simp only [Client.pending, hphase, Cli.Input.commands] at hpending
    split at hpending
    · rename_i hpassword
      refine ⟨{ c with phase := .ready }, by simp only [Client.go, hphase, if_pos hpassword],
        Or.inl ⟨⟨h.issued, h.writer, h.received, h.answered, id, more, hpending⟩, ?_⟩⟩
      simp only [stage, hphase]
      omega
    · rename_i hpassword
      obtain ⟨rfl, -⟩ := List.cons.inj hpending
      have hgo : c.go upper = some (c.issue [bytesOf "AUTH", c.input.password] (.auth .new)) := by
        simp only [Client.go, hphase, if_neg hpassword]
      exact ⟨_, hgo, Or.inr (after_issue h.issued h.writer h.received h.answered ⟨rfl, rfl⟩)⟩
  | ready =>
    simp only [Client.pending, hphase, Cli.Input.further] at hpending
    split at hpending
    · rename_i hargs
      refine ⟨{ c with phase := .prompt }, by simp only [Client.go, hphase, if_pos hargs],
        Or.inl ⟨⟨h.issued, h.writer, h.received, h.answered, id, more, hpending⟩, ?_⟩⟩
      simp only [stage, hphase]
      omega
    · rename_i hargs
      obtain ⟨rfl, -⟩ := List.cons.inj hpending
      have hgo : c.go upper = some (c.issue c.input.args (.line false .new)) := by
        simp only [Client.go, hphase, if_neg hargs]
      exact ⟨_, hgo, Or.inr (after_issue h.issued h.writer h.received h.answered rfl)⟩
  | prompt =>
    simp only [Client.pending, hphase] at hpending
    cases hlines : c.input.lines with
    | nil =>
      rw [hlines] at hpending
      cases hpending
    | cons text lines =>
      rw [hlines, Cli.commandsOfLines] at hpending
      split at hpending
      · rename_i hblank
        refine ⟨{ c with input := { c.input with lines := lines } }, ?_,
          Or.inl ⟨⟨h.issued, h.writer, h.received, h.answered, hwait, more, ?_⟩, ?_⟩⟩
        · simp only [Client.go, hphase, hlines, if_pos hblank]
        · simp only [Client.pending, hphase]
          exact hpending
        · simp only [stage, hphase, hlines, List.length_cons]
          omega
      · rename_i hblank
        split at hpending
        · cases hpending
        · rename_i hquit
          obtain ⟨rfl, -⟩ := List.cons.inj hpending
          have hgo : c.go upper = some (issue { c with input := { c.input with lines := lines } }
              (Text.fields (Text.trimSpace text)) (.line true .new)) := by
            simp only [Client.go, hphase, hlines, if_neg hblank, if_neg hquit]
          refine ⟨_, hgo, Or.inr ?_⟩
          exact after_issue (c := { c with input := { c.input with lines := lines } }) h.issued
            h.writer h.received h.answered rfl
  | done =>
    simp only [Client.pending, hphase] at hpending
    cases hpending
  | _ =>
    rw [hphase] at hwait
    exact absurd trivial hwait

theorem After.go (h : c.After cmd) {upper : Char → Char} (hgo : c.go upper = some c') :
    c'.After cmd := by
  have hidle := h.idle
  cases hphase : c.phase with
  | auth reader =>
    rw [hphase] at hidle
    simp only [Client.go, hphase, hidle.1, hidle.parse_eq, Option.none_or] at hgo
    obtain ⟨r, hfill, rfl⟩ := Option.map_eq_some_iff.mp hgo
    exact ⟨h.issued, h.writer, h.received, h.answered, Resp.Reader.Idle.fill hidle hfill⟩
  | line interactive rd =>
    rw [hphase] at hidle
    obtain rfl : rd = .new := hidle
    have hlf : 10 ∉ LineReader.new.buf := List.not_mem_nil
    have hroom : ¬Cli.bufferSize ≤ LineReader.new.buf.length := by decide
    simp only [Client.go, hphase, if_neg hlf, if_neg hroom] at hgo
    cases hgo
  | _ =>
    rw [hphase] at hidle
    exact hidle.elim

theorem After.buf_ne_nil (h : c.After cmd) : c.writer.w.buf ≠ [] := by
  rw [h.writer]
  exact Writer.new.buf_writeArray_ne_nil (by decide) (cmd.map some)

end Client

end VortexMQ
