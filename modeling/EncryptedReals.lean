import EncryptedReals.Main
import EncryptedReals.Proofs.Circuit
import EncryptedReals.Proofs.Division
import EncryptedReals.Proofs.SwitchingKeys
import EncryptedReals.Proofs.KeySwitch
import EncryptedReals.Proofs.KeySwitchError
import EncryptedReals.Proofs.Relinearization
import EncryptedReals.Proofs.Ring.Automorphism
import EncryptedReals.Proofs.Ring.GaloisAction
import EncryptedReals.Proofs.Rotation
import EncryptedReals.Proofs.Rescaling
import EncryptedReals.Proofs.Encryption
import EncryptedReals.Proofs.Encoding
import EncryptedReals.Proofs.AggregationError
import EncryptedReals.Proofs.SampleStream
import EncryptedReals.Proofs.Schemes
import EncryptedReals.Proofs.Scales
import EncryptedReals.Proofs.Acceptance
import EncryptedReals.Proofs.Refusals
import EncryptedReals.Proofs.PrimeSearch
import EncryptedReals.Proofs.Requests
import EncryptedReals.Proofs.Horner
import EncryptedReals.Proofs.Ring.Passes
import EncryptedReals.Proofs.PlainOperands
import EncryptedReals.Proofs.RingLaws
import EncryptedReals.Proofs.SlotOrder
import EncryptedReals.Proofs.RotationKeys
import EncryptedReals.Proofs.DrawnKeys
import EncryptedReals.Proofs.Chebyshev
import EncryptedReals.Proofs.SlotSums
import EncryptedReals.Proofs.Sessions
import EncryptedReals.Proofs.Reductions
import EncryptedReals.Proofs.Ring.Powers
import EncryptedReals.Proofs.RootSearch
import EncryptedReals.Proofs.Depth
import EncryptedReals.Proofs.Demonstrations
import EncryptedReals.Proofs.NamedProfiles
