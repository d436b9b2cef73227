import Versioning.Cache
import Versioning.CommandLine.Command
import Versioning.CommandLine.Run
import Versioning.CommandLine.Word
import Versioning.Constraint
import Versioning.Error
import Versioning.Interval.Basic
import Versioning.Interval.Bound
import Versioning.Lookup
import Versioning.Main
import Versioning.Native
import Versioning.Native.Bracket
import Versioning.Native.Gem
import Versioning.Native.Npm
import Versioning.Native.Pep440
import Versioning.Native.Pypi
import Versioning.Native.Specifier
import Versioning.Range.Basic
import Versioning.Range.Constraints
import Versioning.Range.Series
import Versioning.Session
import Versioning.StableSort
import Versioning.Text.Blank
import Versioning.Text.Digit
import Versioning.Text.Printable
import Versioning.Text.Quoted
import Versioning.Text.Spans
import Versioning.Text.Split
import Versioning.Uri
import Versioning.Version.Basic
import Versioning.Version.Order
import Versioning.Version.Reader
import Versioning.Version.Series
import Versioning.Proofs.Constraint
import Versioning.Proofs.Interval.Algebra
import Versioning.Proofs.Interval.Containment
import Versioning.Proofs.Interval.Cut
import Versioning.Proofs.Lookup
import Versioning.Proofs.Native.Alternatives
import Versioning.Proofs.Native.Attachment
import Versioning.Proofs.Native.Bounds
import Versioning.Proofs.Native.Brackets
import Versioning.Proofs.Native.Checked
import Versioning.Proofs.Native.Comparators
import Versioning.Proofs.Native.Compatible
import Versioning.Proofs.Native.Conjunction
import Versioning.Proofs.Native.Conversion
import Versioning.Proofs.Native.Hyphen
import Versioning.Proofs.Native.Outcome
import Versioning.Proofs.Native.Prereleases
import Versioning.Proofs.Native.Rendering
import Versioning.Proofs.Native.Series
import Versioning.Proofs.Native.Specifier
import Versioning.Proofs.Native.Wildcards
import Versioning.Proofs.Range.Accord
import Versioning.Proofs.Range.Bounds
import Versioning.Proofs.Range.Commutation
import Versioning.Proofs.Range.Complement
import Versioning.Proofs.Range.Constraints
import Versioning.Proofs.Range.Equality
import Versioning.Proofs.Range.Exclusion
import Versioning.Proofs.Range.Hashing
import Versioning.Proofs.Range.Legible
import Versioning.Proofs.Range.NextSeries
import Versioning.Proofs.Range.Normalization
import Versioning.Proofs.Range.Rearrangement
import Versioning.Proofs.Range.Registers
import Versioning.Proofs.Range.Renormalization
import Versioning.Proofs.Range.Requirements
import Versioning.Proofs.Range.Satisfaction
import Versioning.Proofs.Range.Separated
import Versioning.Proofs.Range.Series
import Versioning.Proofs.Range.Spelling
import Versioning.Proofs.Range.Union
import Versioning.Proofs.Script
import Versioning.Proofs.Session
import Versioning.Proofs.Text
import Versioning.Proofs.Uri
import Versioning.Proofs.Uri.Grammar
import Versioning.Proofs.Version.Build
import Versioning.Proofs.Version.Checked
import Versioning.Proofs.Version.DashSuffix
import Versioning.Proofs.Version.Equality
import Versioning.Proofs.Version.Grammar
import Versioning.Proofs.Version.Normalized
import Versioning.Proofs.Version.Pieces
import Versioning.Proofs.Version.Place
import Versioning.Proofs.Version.Reader
import Versioning.Proofs.Version.Rendered
import Versioning.Proofs.Version.Shape
