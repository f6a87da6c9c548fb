import Tariff.Text.Blank
import Tariff.Text.Lines
import Tariff.Source.NormalForm
import Tariff.Source.Lexeme
import Tariff.Source.Counters
import Tariff.Source.Statement
import Tariff.Source.Program
import Tariff.Text.Numeral
import Tariff.Decimal.Basic
import Tariff.Decimal.Text
import Tariff.Decimal.Sum
import Tariff.Calendar.Date
import Tariff.Calendar.Moment
import Tariff.Json
import Tariff.Formula.Period
import Tariff.Formula.Value
import Tariff.Formula.Basic
import Tariff.Compile.Error
import Tariff.Compile.Addon
import Tariff.Compile.Chain
import Tariff.Engine.Cache
import Tariff.Engine.Store
import Tariff.Engine.Session
import Tariff.Billing.ChargeType
import Tariff.Billing.Money
import Tariff.Billing.Interval
import Tariff.Billing.Charge
import Tariff.Billing.Bill
import Tariff.Billing.Ledger
import Tariff.Config.Node
import Tariff.Config.Settings
import Tariff.Config.Discovery
import Tariff.Config.Environment
import Tariff.Config.File
import Tariff.Config.Yaml
import Tariff.Command.Help
import Tariff.Command.Level
import Tariff.Command.Line
import Tariff.Command.Run
import Tariff.Disk
import Tariff.World
import Tariff.Main
import Tariff.Proofs.Source.Pieces
import Tariff.Proofs.Source.Grammar
import Tariff.Proofs.Source.Derivation
import Tariff.Proofs.Source.LineTokens
import Tariff.Proofs.Source.NormalForm
import Tariff.Proofs.Source.LineStatements
import Tariff.Proofs.Compile.Position
import Tariff.Proofs.Engine.Fetch
import Tariff.Proofs.Engine.Batch
import Tariff.Proofs.Engine.Memo
import Tariff.Proofs.Billing.Merge
import Tariff.Proofs.Billing.BillSet
import Tariff.Proofs.Billing.Totals
import Tariff.Proofs.Billing.Additions
import Tariff.Proofs.Billing.Batches
import Tariff.Proofs.Billing.Keys
import Tariff.Proofs.Compile.Slots
import Tariff.Proofs.Engine.Keeps
import Tariff.Proofs.Engine.Policy
import Tariff.Proofs.Calendar.ReadBack
import Tariff.Proofs.Compile.Rebuild
import Tariff.Proofs.Engine.Rebuild
import Tariff.Proofs.Engine.Identity
import Tariff.Proofs.Source.Tiling
import Tariff.Proofs.Source.Counters
import Tariff.Proofs.Source.Margins
import Tariff.Proofs.Source.Refusal
import Tariff.Proofs.Source.OneStatement
import Tariff.Proofs.Formula.Magnitude
import Tariff.Proofs.Billing.Balance
import Tariff.Proofs.Compile.LastCalls
import Tariff.Proofs.Compile.Repeats
import Tariff.Proofs.Billing.Usage
import Tariff.Proofs.Command.Flags
import Tariff.Proofs.Command.Reports
import Tariff.Proofs.Compile.Message
import Tariff.Proofs.Engine.Validate
import Tariff.Proofs.Billing.Matching
import Tariff.Proofs.Billing.Ledger
import Tariff.Proofs.Compile.Compact
import Tariff.Proofs.Command.Listing
import Tariff.Proofs.Source.Canonical
import Tariff.Proofs.Source.Spelling
import Tariff.Proofs.Text.Words
import Tariff.Proofs.Formula.Forms
import Tariff.Proofs.Source.Origin
import Tariff.Proofs.Compile.Culprit
import Tariff.Proofs.Command.Places
import Tariff.Proofs.Compile.Alike
import Tariff.Proofs.Engine.OwnLine
import Tariff.Proofs.Calendar.Iso
import Tariff.Proofs.Json.Same
import Tariff.Proofs.Formula.JsonForm
import Tariff.Proofs.Billing.JsonForm
import Tariff.Proofs.Config.Load
import Tariff.Proofs.Command.SettingsFile
