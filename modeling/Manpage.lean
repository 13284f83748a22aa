import Manpage.Diagnostic
import Manpage.Main
import Manpage.Proofs.Page.View
import Manpage.Proofs.Token.Chunk
import Manpage.Proofs.Token.Stage
import Manpage.Proofs.Program.Reading
import Manpage.Proofs.Machine.Faults
import Manpage.Proofs.Text.Lines
import Manpage.Proofs.Token.Value
import Manpage.Proofs.Text.Control
import Manpage.Proofs.Page.Text
import Manpage.Proofs.Machine.Steady
import Manpage.Proofs.Page.Tidy
import Manpage.Proofs.Page.Overflow
import Manpage.Proofs.Render.Lines
import Manpage.Proofs.Page.Sheet
import Manpage.Proofs.Page.Greedy
import Manpage.Proofs.Machine.Plain
import Manpage.Proofs.Program.Line
import Manpage.Proofs.Program.Word
import Manpage.Proofs.Program.Prose
import Manpage.Proofs.Machine.Filling
import Manpage.Proofs.Prose.Word
import Manpage.Proofs.Prose.Line
import Manpage.Proofs.Render.Prose
import Manpage.Proofs.Number.Whole
import Manpage.Proofs.Program.Request
import Manpage.Proofs.Machine.Spacing
import Manpage.Proofs.Prose.Paragraph
import Manpage.Proofs.Render.Paragraphs
import Manpage.Proofs.Machine.Core
import Manpage.Proofs.Machine.Depth
import Manpage.Proofs.Page.Become
import Manpage.Proofs.Page.Ink
import Manpage.Proofs.Page.Operation
import Manpage.Proofs.Program.Margins
import Manpage.Proofs.Program.Text
import Manpage.Proofs.Program.Scopes
import Manpage.Proofs.Render.Scopes
import Manpage.Proofs.Token.Call
import Manpage.Proofs.Token.Occurrence
import Manpage.Proofs.Text.Shown
import Manpage.Proofs.Page.Together
import Manpage.Proofs.Machine.Shown
import Manpage.Proofs.Program.Chunk
import Manpage.Proofs.Render.Chunks
import Manpage.Proofs.Token.Place
import Manpage.Proofs.Page.Decoration
import Manpage.Proofs.Machine.Keeping
import Manpage.Proofs.Render.Verbatim
import Manpage.Proofs.Page.Bare
import Manpage.Proofs.Program.Flush
import Manpage.Proofs.Program.Hidden
import Manpage.Proofs.Machine.Hidden
import Manpage.Proofs.Render.Hidden
import Manpage.Proofs.Program.Trace
import Manpage.Proofs.Machine.Trace
import Manpage.Proofs.Program.Marker
import Manpage.Proofs.Program.Amount
import Manpage.Proofs.Render.Amounts
import Manpage.Proofs.Page.Spaced
import Manpage.Proofs.Program.Skips
import Manpage.Proofs.Machine.Spaced
import Manpage.Proofs.Render.Spacing
import Manpage.Proofs.Program.Styled
import Manpage.Proofs.Prose.Styled
import Manpage.Proofs.Page.Marked
import Manpage.Proofs.Machine.Styled
import Manpage.Proofs.Render.Styled
import Manpage.Proofs.Page.Alike
import Manpage.Proofs.Page.Assembled
import Manpage.Proofs.Program.InFont
import Manpage.Proofs.Render.InFont
import Manpage.Proofs.Program.Called
import Manpage.Proofs.Render.Reached
import Manpage.Proofs.Program.Argument
import Manpage.Proofs.Machine.Onto
import Manpage.Proofs.Token.First
import Manpage.Proofs.Program.Tagged
import Manpage.Proofs.Machine.Tagged
import Manpage.Proofs.Render.Tagged
import Manpage.Proofs.Token.Lexemes
import Manpage.Proofs.Prose.Title
import Manpage.Proofs.Program.Title
import Manpage.Proofs.Machine.Title
import Manpage.Proofs.Render.Title
import Manpage.Proofs.Program.Handler
import Manpage.Proofs.Program.Scoped
import Manpage.Proofs.Machine.Scoped
import Manpage.Proofs.Program.Block
import Manpage.Proofs.Machine.Margins
import Manpage.Proofs.Render.Block
import Manpage.Proofs.Page.Fitting
import Manpage.Proofs.Prose.Alternating
import Manpage.Proofs.Program.Alternating
import Manpage.Proofs.Machine.Alternating
import Manpage.Proofs.Text.Utf8
import Manpage.Proofs.Config.Settings
import Manpage.Proofs.Config.Hexadecimal
import Manpage.Proofs.Command.Files
import Manpage.Proofs.Command.Options
import Manpage.Proofs.Command.Answers
import Manpage.Proofs.Command.Aftermath
import Manpage.Proofs.Text.Quoted
import Manpage.Proofs.Token.Dump
import Manpage.Proofs.Token.Site
import Manpage.Proofs.Render.Snippet
import Manpage.Proofs.Program.Warnings
import Manpage.Proofs.Machine.Warnings
import Manpage.Proofs.Render.Diagnostics
import Manpage.Proofs.Text.LineEnds
import Manpage.Proofs.Render.EditorLines
import Manpage.Proofs.Number.Rounding
import Manpage.Proofs.Number.Literal
import Manpage.Proofs.Number.Truncated
import Manpage.Proofs.Machine.Numbers
import Manpage.Proofs.Token.Grammar
import Manpage.Proofs.Page.Galley
import Manpage.Proofs.Page.Accounting
import Manpage.Proofs.Page.Repadding
import Manpage.Proofs.Token.Division
