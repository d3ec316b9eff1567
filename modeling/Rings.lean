import Rings.AdmissionBudget
import Rings.AppInboxRuns
import Rings.AtMostOnce
import Rings.CarrierRefinement
import Rings.ChordOperators
import Rings.ChunkDelivery
import Rings.CreditLaws
import Rings.CrossingSettlement
import Rings.DeliveryConverged
import Rings.DeliveryRoutes
import Rings.DispatchRuns
import Rings.E2eRoundTrip
import Rings.EmissionBudget
import Rings.FailClosed
import Rings.FairWaitQueue
import Rings.FingerProofs
import Rings.FingerTokens
import Rings.GatewayEvents
import Rings.InboundBudgets
import Rings.InboundOrder
import Rings.LoopDraws
import Rings.MaintenanceLaws
import Rings.MemStore
import Rings.NoResurrection
import Rings.OnionFrames
import Rings.OutboundRuns
import Rings.OwnerLookup
import Rings.QuotaRuns
import Rings.RelayAgreement
import Rings.RelayClean
import Rings.RelayCustody
import Rings.RelayMail
import Rings.RelayMemoryRuns
import Rings.RemovalAccounting
import Rings.ReplayExact
import Rings.ReservationRuns
import Rings.RetirementLaws
import Rings.RingBytes
import Rings.RotationRuns
import Rings.SequenceReuse
import Rings.SessionAgreement
import Rings.SessionIsolation
import Rings.SessionOrder
import Rings.SlotBatch
import Rings.SphinxLoop
import Rings.Stamp
import Rings.StoreReports
