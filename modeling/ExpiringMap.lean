import ExpiringMap.Agenda.Command
import ExpiringMap.LiveMap.Builder
import ExpiringMap.LiveMap.Operation
import ExpiringMap.Main
import ExpiringMap.Outbox.Session
import ExpiringMap.Table.Command
import ExpiringMap.Proofs.CommandLine
import ExpiringMap.Proofs.Agenda.HeapOrder
import ExpiringMap.Proofs.Agenda.Linked
import ExpiringMap.Proofs.Agenda.Sift
import ExpiringMap.Proofs.Agenda.Operations
import ExpiringMap.Proofs.Agenda.Root
import ExpiringMap.Proofs.Agenda.Checks
import ExpiringMap.Proofs.Agenda.History
import ExpiringMap.Proofs.Agenda.Priority
import ExpiringMap.Proofs.Agenda.Repair
import ExpiringMap.Proofs.Table.Consistent
import ExpiringMap.Proofs.Table.Operations
import ExpiringMap.Proofs.Table.Due
import ExpiringMap.Proofs.Table.Ends
import ExpiringMap.Proofs.Table.Checks
import ExpiringMap.Proofs.Table.History
import ExpiringMap.Proofs.Table.Answers
import ExpiringMap.Proofs.Table.Bindings
import ExpiringMap.Proofs.Table.Refinement
import ExpiringMap.Proofs.Table.Guards
import ExpiringMap.Proofs.Table.Standings
import ExpiringMap.Proofs.Table.DueCount
import ExpiringMap.Proofs.Table.Batches
import ExpiringMap.Proofs.Table.Tallies
import ExpiringMap.Proofs.Table.Balance
import ExpiringMap.Proofs.Table.Routes
import ExpiringMap.Proofs.Table.Readings
import ExpiringMap.Proofs.Outbox.Operations
import ExpiringMap.Proofs.Outbox.Pool
import ExpiringMap.Proofs.Outbox.Session
import ExpiringMap.Proofs.Outbox.Workers
import ExpiringMap.Proofs.LiveMap.Sweeper
import ExpiringMap.Proofs.LiveMap.Scene
import ExpiringMap.Proofs.LiveMap.Calls
import ExpiringMap.Proofs.LiveMap.Turns
import ExpiringMap.Proofs.LiveMap.Sound
import ExpiringMap.Proofs.LiveMap.Measure
import ExpiringMap.Proofs.LiveMap.Rest
import ExpiringMap.Proofs.LiveMap.Moves
import ExpiringMap.Proofs.LiveMap.Building
import ExpiringMap.Proofs.LiveMap.Takings
import ExpiringMap.Proofs.LiveMap.Ledger
import ExpiringMap.Proofs.LiveMap.Realarm
import ExpiringMap.Proofs.LiveMap.View
import ExpiringMap.Proofs.LiveMap.Lockstep
import ExpiringMap.Proofs.LiveMap.Calm
import ExpiringMap.Proofs.LiveMap.Checking
import ExpiringMap.Proofs.LiveMap.Runs
import ExpiringMap.Proofs.LiveMap.OnTime
import ExpiringMap.Proofs.LiveMap.Accounts
import ExpiringMap.Proofs.LiveMap.Routes
import ExpiringMap.Proofs.LiveMap.Readings
import ExpiringMap.Proofs.LiveMap.Custody
import ExpiringMap.Proofs.LiveMap.Journal
import ExpiringMap.Proofs.LiveMap.Deliveries
import ExpiringMap.Proofs.LiveMap.Shutdown
import ExpiringMap.Proofs.LiveMap.Staffing
import ExpiringMap.Proofs.LiveMap.Alike
import ExpiringMap.Proofs.LiveMap.Sweeps
import ExpiringMap.Proofs.LiveMap.Recalling
import ExpiringMap.Proofs.LiveMap.Sleeping
import ExpiringMap.Proofs.LiveMap.Noninterference
import ExpiringMap.Proofs.LiveMap.Lone
import ExpiringMap.Proofs.LiveMap.Confluence
import ExpiringMap.Proofs.LiveMap.Rotas
import ExpiringMap.Proofs.LiveMap.Rounds
import ExpiringMap.Proofs.LiveMap.Permit
import ExpiringMap.Proofs.LiveMap.Composed
import ExpiringMap.Proofs.LiveMap.Restart
import ExpiringMap.Proofs.LiveMap.Settling
import ExpiringMap.Proofs.LiveMap.Handling
import ExpiringMap.Proofs.LiveMap.Additions
import ExpiringMap.Proofs.LiveMap.Rearming
import ExpiringMap.Proofs.LiveMap.Cycles
import ExpiringMap.Proofs.LiveMap.CountingUp
