import Packaging.Changelog.Addition
import Packaging.Changelog.Rewrap
import Packaging.Changelog.Thanks
import Packaging.Edit.Control
import Packaging.Edit.Description
import Packaging.Edit.Entry
import Packaging.Edit.Rules
import Packaging.Makefile.Edit
import Packaging.Makefile.Invocation
import Packaging.Stanza.Change
import Packaging.Stanza.Record
import Packaging.Text.Diff
import Packaging.WatchFile.Record
import Packaging.Proofs.Changelog.RoundTrip
import Packaging.Proofs.Edit.Session
import Packaging.Proofs.Makefile.Lines
import Packaging.Proofs.Stanza.Canonical
import Packaging.Proofs.Changelog.Ledger
import Packaging.Proofs.Text.Words
import Packaging.Proofs.Changelog.Filling
import Packaging.Proofs.Changelog.Rewrapping
import Packaging.Proofs.Changelog.Summary
import Packaging.Proofs.Changelog.Addition
import Packaging.Proofs.Makefile.Continuation
import Packaging.Proofs.Makefile.Conditionals
import Packaging.Proofs.Makefile.DropRule
import Packaging.Proofs.Text.Ink
import Packaging.Proofs.WatchFile.Lines
import Packaging.Proofs.WatchFile.Options
import Packaging.Proofs.WatchFile.Items
import Packaging.Proofs.WatchFile.Writable
import Packaging.Proofs.Stanza.Names
import Packaging.Proofs.Stanza.Groups
import Packaging.Proofs.Stanza.Edits
import Packaging.Proofs.Stanza.Choices
import Packaging.Proofs.Stanza.Conflicts
import Packaging.Proofs.Changelog.RereadableAddition
import Packaging.Proofs.Stanza.Confined
import Packaging.Proofs.Stanza.Normal
import Packaging.Proofs.Makefile.Clearing
import Packaging.Proofs.Makefile.Targets
import Packaging.Proofs.Makefile.Overrides
import Packaging.Proofs.Makefile.Reading
import Packaging.Proofs.Makefile.Shape
import Packaging.Proofs.Makefile.Variables
import Packaging.Proofs.Makefile.Exchange
import Packaging.Proofs.Makefile.Folding
import Packaging.Proofs.Makefile.Ink
import Packaging.Proofs.Edit.Rules
import Packaging.Proofs.Changelog.Order
import Packaging.Proofs.Changelog.Successor
import Packaging.Proofs.Changelog.Settled
import Packaging.Proofs.Changelog.Coverage
import Packaging.Proofs.Changelog.Refusal
import Packaging.Proofs.Makefile.AddedAddon
import Packaging.Proofs.Makefile.AddonPlaces
import Packaging.Proofs.Makefile.AddonRoundTrip
import Packaging.Proofs.Makefile.DroppedAddon
import Packaging.Proofs.Makefile.Arguments
import Packaging.Proofs.Makefile.Patterns
import Packaging.Proofs.WatchFile.Folding
import Packaging.Proofs.WatchFile.OptionMap
import Packaging.Proofs.LineList
import Packaging.Proofs.Makefile.Headers
import Packaging.Proofs.Stanza.Tokens
