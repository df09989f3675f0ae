import StateLexer.Catalogue
import StateLexer.Channel.Rendezvous
import StateLexer.Scan
import StateLexer.Session.Request
import StateLexer.Stepper
import StateLexer.Proofs.Backward
import StateLexer.Proofs.Channel.Account
import StateLexer.Proofs.Channel.Blocking
import StateLexer.Proofs.Recognizer.Acceptance
import StateLexer.Proofs.Scan.Failure
import StateLexer.Proofs.Session.Cancellation
import StateLexer.Proofs.Standard.Canonical
import StateLexer.Proofs.Standard.Termination
import StateLexer.Proofs.Standard.Words
import StateLexer.Proofs.Wiring.Empty
import StateLexer.Proofs.Recognizer.Label
import StateLexer.Proofs.Recognizer.Chain
import StateLexer.Proofs.Standard.Newlines
import StateLexer.Proofs.Text.Order
import StateLexer.Proofs.Scan.Strict
import StateLexer.Proofs.Run.Policy
import StateLexer.Proofs.Lookahead
import StateLexer.Proofs.Runes
import StateLexer.Proofs.Refusal
import StateLexer.Proofs.Session.LastSeen
import StateLexer.Proofs.Standard.Diagnostics
import StateLexer.Proofs.Reader.Literal
import StateLexer.Proofs.Reader.Prefix
