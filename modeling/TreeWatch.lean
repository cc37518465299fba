import TreeWatch.Main
import TreeWatch.Source.Tables
import TreeWatch.Proofs.Order
import TreeWatch.Proofs.Tree
import TreeWatch.Proofs.Changes
import TreeWatch.Proofs.Walk
import TreeWatch.Proofs.Sound
import TreeWatch.Proofs.Capture
import TreeWatch.Proofs.Mutation
import TreeWatch.Proofs.Upkeep
import TreeWatch.Proofs.Filling
import TreeWatch.Proofs.Follow
import TreeWatch.Proofs.Edits
import TreeWatch.Proofs.Placement
import TreeWatch.Proofs.Acts
import TreeWatch.Proofs.FirstSweep
import TreeWatch.Proofs.SecondSweep
import TreeWatch.Proofs.FullPass
import TreeWatch.Proofs.Sparing
import TreeWatch.Proofs.Undisturbed
import TreeWatch.Proofs.Notifications
import TreeWatch.Proofs.Handling
import TreeWatch.Proofs.Tangles
import TreeWatch.Proofs.Redundant
import TreeWatch.Proofs.IdlePass
import TreeWatch.Proofs.SceneTree
import TreeWatch.Proofs.Observed
import TreeWatch.Proofs.Census
import TreeWatch.Proofs.Guards
import TreeWatch.Proofs.Trails
import TreeWatch.Proofs.Accounts
import TreeWatch.Proofs.Settling
import TreeWatch.Proofs.Convergence
import TreeWatch.Proofs.Storms
import TreeWatch.Proofs.Rehearsals
import TreeWatch.Proofs.Laws
import TreeWatch.Proofs.Lasting
import TreeWatch.Proofs.Mourning
import TreeWatch.Proofs.Mourners
import TreeWatch.Proofs.Farewells
import TreeWatch.Proofs.Obituaries
import TreeWatch.Proofs.Windows
import TreeWatch.Proofs.Gathering
import TreeWatch.Proofs.InPlace
import TreeWatch.Proofs.Orderly
import TreeWatch.Proofs.Validation
import TreeWatch.Proofs.Draining
import TreeWatch.Proofs.Charts
import TreeWatch.Proofs.Generations
import TreeWatch.Proofs.Batches
import TreeWatch.Proofs.DeadRows
import TreeWatch.Proofs.Narration
import TreeWatch.Proofs.Removals
import TreeWatch.Proofs.Repairs
import TreeWatch.Proofs.Lookups
import TreeWatch.Proofs.Departures
import TreeWatch.Proofs.Reports
import TreeWatch.Proofs.Sides
import TreeWatch.Proofs.Moves
import TreeWatch.Proofs.Relocations
import TreeWatch.Proofs.Verdicts
import TreeWatch.Proofs.Views
import TreeWatch.Proofs.Endings
import TreeWatch.Proofs.Bookkeeping
import TreeWatch.Proofs.Evictions
import TreeWatch.Proofs.Cells
import TreeWatch.Proofs.Answers
import TreeWatch.Proofs.Reading
import TreeWatch.Proofs.Journals
