import Chip8.Assembly.Assemble
import Chip8.Assembly.Cursor
import Chip8.Assembly.Error
import Chip8.Assembly.Form
import Chip8.Assembly.Layout
import Chip8.Assembly.Numeral
import Chip8.Assembly.Source
import Chip8.Assembly.Statement
import Chip8.Assembly.Token
import Chip8.Bits
import Chip8.CallStack
import Chip8.Command.Arguments
import Chip8.Command.Build
import Chip8.Command.Directory
import Chip8.Command.Path
import Chip8.Command.Play
import Chip8.Command.Report
import Chip8.Display
import Chip8.Fault
import Chip8.Fetch
import Chip8.Hardware
import Chip8.Hex
import Chip8.Instr.Basic
import Chip8.Instr.Text
import Chip8.Instr.Word
import Chip8.Keymap
import Chip8.Keypad
import Chip8.Machine.Basic
import Chip8.Machine.Execute
import Chip8.Machine.KeyWait
import Chip8.Machine.Report
import Chip8.Machine.Run
import Chip8.Main
import Chip8.Memory
import Chip8.Notice
import Chip8.Proofs.Assembly.Acceptance
import Chip8.Proofs.Assembly.Account
import Chip8.Proofs.Assembly.Disassembly
import Chip8.Proofs.Assembly.Grammar
import Chip8.Proofs.Assembly.Layout
import Chip8.Proofs.Assembly.Lexeme
import Chip8.Proofs.Assembly.Numbers
import Chip8.Proofs.Assembly.Numeral
import Chip8.Proofs.Assembly.Outcome
import Chip8.Proofs.Assembly.Parts
import Chip8.Proofs.Assembly.Passes
import Chip8.Proofs.Assembly.Placement
import Chip8.Proofs.Assembly.Roundtrip
import Chip8.Proofs.Assembly.Spacing
import Chip8.Proofs.Assembly.Spelling
import Chip8.Proofs.Assembly.Tabs
import Chip8.Proofs.Assembly.Words
import Chip8.Proofs.Assembly.Writing
import Chip8.Proofs.Instr.Decoding
import Chip8.Proofs.Instr.Encoding
import Chip8.Proofs.Instr.Inverse
import Chip8.Proofs.Instr.Operands
import Chip8.Proofs.Machine.Calls
import Chip8.Proofs.Machine.Ending
import Chip8.Proofs.Machine.Flow
import Chip8.Proofs.Machine.Footprint
import Chip8.Proofs.Machine.History
import Chip8.Proofs.Machine.KeyWait
import Chip8.Proofs.Machine.Refusal
import Chip8.Proofs.Machine.Run
import Chip8.Proofs.Machine.WellFormed
import Chip8.Proofs.Memory
import Chip8.Proofs.Sequencing
import Chip8.Proofs.Surface
import Chip8.Proofs.Window
import Chip8.Surface
import Chip8.Text.Blank
import Chip8.Text.Integer
import Chip8.Text.Letter
import Chip8.Text.LineEnds
import Chip8.Text.Quoted
import Chip8.Text.Tabs
import Chip8.Text.WordChar
import Chip8.Timer
import Chip8.Window
import Chip8.Proofs.Machine.Course
import Chip8.Proofs.Machine.Stores
import Chip8.Proofs.Machine.Alike
import Chip8.Proofs.Machine.Arithmetic
import Chip8.Proofs.Machine.Pictures
import Chip8.Proofs.Machine.Timers
import Chip8.Proofs.Machine.Saved
import Chip8.Proofs.Machine.Outside
import Chip8.Proofs.Machine.Waiting
import Chip8.Proofs.Machine.Script
import Chip8.Proofs.Drawing
import Chip8.Proofs.Machine.Sprites
import Chip8.Proofs.Keys
import Chip8.Proofs.LatestWrite
import Chip8.Proofs.Assembly.Requests
import Chip8.Proofs.Assembly.Concatenation
import Chip8.Proofs.Assembly.Rounds
import Chip8.Proofs.Loading
import Chip8.Proofs.Views
