import Charlotte.Graft.DiskStore
import Charlotte.Graft.Safety.LogMatching
import Charlotte.Graft.Safety.Reads
import Charlotte.Graft.Safety.Authority
import Charlotte.Graft.Safety.Joins
import Charlotte.Catalog.Generation
import Charlotte.Catalog.Retirement
import Charlotte.Relmsg.Wraparound
import Charlotte.Placement.Presentation
import Charlotte.Placement.Agent
import Charlotte.Placement.Gate
import Charlotte.Placement.CapacityFilter
import Charlotte.ObjStore.Identity
import Charlotte.Authorization.Tickets
import Charlotte.Kernel.CloseSafety
import Charlotte.Kernel.IdTableSafety
import Charlotte.Kafka.Produce
import Charlotte.Kafka.Fetch
import Charlotte.Ingress.History
import Charlotte.Ingress.Rendezvous
