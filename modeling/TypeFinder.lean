import TypeFinder.Main
import TypeFinder.FileSystem.Memory
import TypeFinder.Proofs.Php.Scoping
import TypeFinder.Proofs.Php.Interpolation
import TypeFinder.Proofs.Php.Sections
import TypeFinder.Proofs.Php.WellFormed
import TypeFinder.Proofs.Memory.Walk
import TypeFinder.Proofs.Locator.Policies
import TypeFinder.Proofs.Locator.Pipeline
import TypeFinder.Proofs.Locator.Agreement
import TypeFinder.Proofs.Command.Verdict
import TypeFinder.Proofs.Php.Reading
import TypeFinder.Proofs.Php.HeredocTokens
import TypeFinder.Proofs.Locator.Validation
import TypeFinder.Proofs.Memory.Children
import TypeFinder.Proofs.Locator.Expansion
import TypeFinder.Proofs.Report.Listing
import TypeFinder.Proofs.Php.LetterCase
import TypeFinder.Proofs.Php.Foreign
