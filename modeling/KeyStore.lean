import KeyStore.Main
import KeyStore.Proofs.Numerals
import KeyStore.Proofs.Tables
import KeyStore.Proofs.Rankings
import KeyStore.Proofs.Frames
import KeyStore.Proofs.Containers
import KeyStore.Proofs.Deadlines
import KeyStore.Proofs.OneKey
import KeyStore.Proofs.Actions
import KeyStore.Proofs.ManyKeys
import KeyStore.Proofs.Reading
import KeyStore.Proofs.Records
import KeyStore.Proofs.Sizes
import KeyStore.Proofs.Replays
import KeyStore.Proofs.Courses
import KeyStore.Proofs.Expiry
import KeyStore.Proofs.Restarts
import KeyStore.Proofs.LogFidelity
import KeyStore.Proofs.Crashes
import KeyStore.Proofs.Lives
import KeyStore.Proofs.Durability
import KeyStore.Proofs.Lines
import KeyStore.Proofs.Damage
import KeyStore.Proofs.Scans
import KeyStore.Proofs.Appends
import KeyStore.Proofs.Skips
import KeyStore.Proofs.FarDeadlines
import KeyStore.Proofs.Invariants
import KeyStore.Proofs.Refusals
import KeyStore.Proofs.Streams
import KeyStore.Proofs.Reads
import KeyStore.Proofs.Strangers
import KeyStore.Proofs.Partitions
import KeyStore.Proofs.Loading
import KeyStore.Proofs.Grammar
import KeyStore.Proofs.Conversations
import KeyStore.Proofs.Answers
import KeyStore.Proofs.Meanings
import KeyStore.Proofs.Kinds
import KeyStore.Proofs.Locality
import KeyStore.Proofs.DeadlineOwners
import KeyStore.Proofs.Domains
import KeyStore.Proofs.Families
import KeyStore.Proofs.Stored
import KeyStore.Proofs.Words
import KeyStore.Proofs.Scores
import KeyStore.Proofs.SortedSets
import KeyStore.Proofs.Ranges
import KeyStore.Proofs.Counters
import KeyStore.Proofs.Cycles
import KeyStore.Proofs.TwoReadings
import KeyStore.Proofs.Verdicts
import KeyStore.Proofs.Attempts
import KeyStore.Proofs.Lockouts
import KeyStore.Proofs.Dialects
import KeyStore.Proofs.Patterns
import KeyStore.Proofs.Directives
import KeyStore.Proofs.Flags
import KeyStore.Proofs.Admissions
import KeyStore.Proofs.Expirations
import KeyStore.Proofs.Rounding
import KeyStore.Proofs.Layouts
import KeyStore.Proofs.ScoreTexts
import KeyStore.Proofs.Transfers
import KeyStore.Proofs.ConfigFiles
