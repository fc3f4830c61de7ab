import SoftCache.Cache.Basic
import SoftCache.Cache.Literal
import SoftCache.Cache.Recorder
import SoftCache.Cache.Request
import SoftCache.Cache.Update
import SoftCache.Cache.Violation
import SoftCache.Cursor
import SoftCache.Directory
import SoftCache.Error
import SoftCache.Holder
import SoftCache.Key.Basic
import SoftCache.Key.Mixing
import SoftCache.LoadFactor
import SoftCache.LogLine
import SoftCache.Number.Binary
import SoftCache.Number.Decimal
import SoftCache.Number.Power
import SoftCache.Reclaimer
import SoftCache.Reply
import SoftCache.Step
import SoftCache.Table.Basic
import SoftCache.Table.Buckets
import SoftCache.Table.Eviction
import SoftCache.Table.Growth
import SoftCache.Table.Literal
import SoftCache.Table.Lookup
import SoftCache.Table.Request
import SoftCache.Table.Slot
import SoftCache.Table.Update
import SoftCache.Table.View
import SoftCache.Table.Violation
import SoftCache.Text.Quoted
import SoftCache.World.Basic
import SoftCache.World.Request
import SoftCache.Proofs.Table.Ledger
import SoftCache.Proofs.Table.Reading
import SoftCache.Proofs.Cache.Mirror
import SoftCache.Proofs.Cache.Reading
import SoftCache.Proofs.Cache.Service
import SoftCache.Proofs.Cache.Upkeep
import SoftCache.Proofs.Cache.Pinning
import SoftCache.Proofs.Table.Copying
import SoftCache.Proofs.World.Consistency
import SoftCache.Proofs.World.Frames
import SoftCache.Proofs.World.Listening
import SoftCache.Proofs.World.Pinning
import SoftCache.Proofs.World.Refinement
import SoftCache.Proofs.World.Budget
import SoftCache.Proofs.World.Registration
import SoftCache.Proofs.World.Sweeping
import SoftCache.Proofs.World.Transparency
import SoftCache.Proofs.Cache.Counting
import SoftCache.Proofs.World.Conservation
import SoftCache.Proofs.World.Capacity
import SoftCache.Proofs.Table.Lively
import SoftCache.Proofs.Table.Twins
import SoftCache.Proofs.Table.Likeness
import SoftCache.Proofs.World.Using
import SoftCache.Proofs.World.Copying
import SoftCache.Proofs.Table.Nulls
import SoftCache.Proofs.World.Nulls
import SoftCache.Proofs.Renewal
import SoftCache.Proofs.Table.Replacing
import SoftCache.Proofs.World.Replacing
import SoftCache.Proofs.Table.Cloning
import SoftCache.Proofs.World.Cloning
import SoftCache.Proofs.Table.Probing
import SoftCache.Proofs.Table.Evicting
import SoftCache.Proofs.World.Evicting
import SoftCache.Proofs.Cache.Writing
import SoftCache.Proofs.World.Writing
import SoftCache.Proofs.Checked.Basic
import SoftCache.Proofs.Checked.Buckets
import SoftCache.Proofs.Checked.Table
import SoftCache.Proofs.Checked.Cache
import SoftCache.Proofs.Checked.World
import SoftCache.Proofs.Cache.Stillness
import SoftCache.Proofs.World.Stillness
import SoftCache.Proofs.Table.Agreement
import SoftCache.Proofs.World.Agreement
import SoftCache.Proofs.Table.Spilling
import SoftCache.Proofs.Cache.Wholeness
import SoftCache.Proofs.Cache.Losses
import SoftCache.Proofs.World.Losses
import SoftCache.Proofs.Table.Waning
import SoftCache.Proofs.Table.Stamps
import SoftCache.Proofs.Table.Ageing
import SoftCache.Proofs.Cache.Ageing
import SoftCache.Proofs.World.Everywhere
import SoftCache.Proofs.World.Ageing
import SoftCache.Proofs.Table.Growing
import SoftCache.Proofs.Table.Aiming
import SoftCache.Proofs.World.Aiming
import SoftCache.Proofs.Cache.Clearing
import SoftCache.Proofs.World.Clearing
import SoftCache.Proofs.Table.Walking
import SoftCache.Proofs.World.Walking
import SoftCache.Proofs.World.Iterating
