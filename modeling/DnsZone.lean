import DnsZone.Interchange.Record
import DnsZone.Proofs.Abandonment
import DnsZone.Proofs.Addition
import DnsZone.Proofs.ApexIntegrity
import DnsZone.Proofs.Atomicity
import DnsZone.Proofs.Filing
import DnsZone.Proofs.LetterCase
import DnsZone.Proofs.Loading
import DnsZone.Proofs.Name.Order
import DnsZone.Proofs.Name.Wire
import DnsZone.Proofs.NameVeto
import DnsZone.Proofs.OneMap
import DnsZone.Proofs.OriginIntegrity
import DnsZone.Proofs.PlainZone.Commit
import DnsZone.Proofs.PlainZone.Direct
import DnsZone.Proofs.PlainZone.Versioned
import DnsZone.Proofs.PutVeto
import DnsZone.Proofs.Registry
import DnsZone.Proofs.Relativization
import DnsZone.Proofs.SerialUpdate
import DnsZone.Proofs.StrictDeletion
import DnsZone.Proofs.Transaction.LifeCycle
import DnsZone.Proofs.Transaction.Refusal
import DnsZone.Proofs.Updater.Conclusion
import DnsZone.Proofs.Updater.FullTransfer
import DnsZone.Proofs.VersionedZone.Batches
import DnsZone.Proofs.VersionedZone.Numbering
import DnsZone.Proofs.VersionedZone.Pruning
import DnsZone.Proofs.VersionedZone.ReaderEnds
import DnsZone.Proofs.VersionedZone.Sharing
import DnsZone.Proofs.WorkingCopy.CopyOnWrite
import DnsZone.Session.Run
