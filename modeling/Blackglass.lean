import Blackglass.Schema
import Blackglass.Lib.Rows
import Blackglass.Statement
import Blackglass.Lib.Text
import Blackglass.Lib.Transition
import Blackglass.Constraints
import Blackglass.Auth
import Blackglass.Session
import Blackglass.Vaults
import Blackglass.Membership
import Blackglass.Lib.Json
import Blackglass.Notice
import Blackglass.Revisions
import Blackglass.MembershipBounds
import Blackglass.Verify
import Blackglass.Handlers
import Blackglass.TextValidation
import Blackglass.Recovery
import Blackglass.RevisionStore
import Blackglass.History
import Blackglass.Lib.Broadcast
import Blackglass.Stream.System
import Blackglass.Stream.Steps
import Blackglass.Stream.Order
import Blackglass.Stream.Changes
import Blackglass.Stream.Replica
import Blackglass.Stream.Converge
import Blackglass.CompareAndSwap
import Blackglass.Lib.Budget
import Blackglass.Quota.Usage
import Blackglass.Users
import Blackglass.Accounts
import Blackglass.Accounts.Tokens
import Blackglass.Accounts.SessionTable
import Blackglass.Accounts.UserTable
import Blackglass.Access
import Blackglass.Epoch
import Blackglass.Lib.Retention
import Blackglass.Markers
import Blackglass.Epoch.Renaming
import Blackglass.Tenant
import Blackglass.Authority
import Blackglass.Epoch.Stale
import Blackglass.Lib.Task
import Blackglass.DataPlane.Reads
import Blackglass.DataPlane.Connection
import Blackglass.DataPlane.Revocation
import Blackglass.DataPlane.Isolation
import Blackglass.Quota.Reservations
import Blackglass.Quota.Scope
import Blackglass.Publication
import Blackglass.Revisions.Restore
import Blackglass.Revisions.Purge
import Blackglass.Lib.Serial
import Blackglass.Membership.Shares
import Blackglass.Vaults.Migration
import Blackglass.DataPlane.Keys
import Blackglass.Lib.Stretch
import Blackglass.Revisions.Uids
import Blackglass.DataPlane.Upload
import Blackglass.DataPlane.Transfer
import Blackglass.SchemaMigration
import Blackglass.SchemaMigration.Lineage
import Blackglass.SchemaMigration.Meaning
import Blackglass.SchemaMigration.Steps
import Blackglass.SchemaMigration.Acceptance
import Blackglass.Lib.Window
import Blackglass.Limits.ShareInvites
import Blackglass.Limits.Sources
import Blackglass.Accounts.Inactivity
import Blackglass.Accounts.Roles
import Blackglass.DataPlane.Denial
import Blackglass.DataPlane.DeletedListing
import Blackglass.DataPlane.HistoryPages
import Blackglass.Lib.Delimited
import Blackglass.Lib.JsonText
import Blackglass.Publish.CanonicalJson
import Blackglass.Lib.FileTree
import Blackglass.Publish.Inventory
import Blackglass.Publish.Runtime
import Blackglass.AdminSnapshot
import Blackglass.Lib.IpAddr
import Blackglass.DataHost
import Blackglass.Lib.Tally
import Blackglass.Limits.Permits
import Blackglass.DataPlane.LiveRegistry
import Blackglass.Quota.Admission
import Blackglass.Quota.Admission.Commits
