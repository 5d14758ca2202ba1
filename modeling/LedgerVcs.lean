import LedgerVcs.Api.Namespaces
import LedgerVcs.Auth.Readback
import LedgerVcs.Build.Turns
import LedgerVcs.Format.Resync
import LedgerVcs.Fs.Coverage
import LedgerVcs.Fs.Patch
import LedgerVcs.Grammar
import LedgerVcs.Maintenance.Expiry
import LedgerVcs.Maintenance.Resurrection
import LedgerVcs.Maintenance.Scanning
import LedgerVcs.Maintenance.Unreadable
import LedgerVcs.Meta.Announcements
import LedgerVcs.Meta.Changes
import LedgerVcs.Meta.Orphans
import LedgerVcs.Meta.Undone
import LedgerVcs.Migrate.Faithful
import LedgerVcs.Oci.Pulls
import LedgerVcs.Service.Reuse
import LedgerVcs.Service.Updates
import LedgerVcs.Service.Uploads
import LedgerVcs.Store.Catalogued
import LedgerVcs.Store.Names
