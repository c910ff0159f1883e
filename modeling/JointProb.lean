import JointProb.LogFormat
import JointProb.Proofs.Catalog.Encoding
import JointProb.Proofs.Distribution.Association
import JointProb.Proofs.Distribution.Entropy
import JointProb.Proofs.Distribution.Laws
import JointProb.Proofs.Distribution.Named
import JointProb.Proofs.Network.Independence
import JointProb.Proofs.Network.LeastOrder
import JointProb.Proofs.Network.Range
import JointProb.Proofs.Query.BothWays
import JointProb.Proofs.Query.Lookup
import JointProb.Proofs.Query.Number
import JointProb.Proofs.Query.Rejected
import JointProb.Proofs.Query.Reworded
import JointProb.Proofs.Query.Spelling
import JointProb.Proofs.Query.Stages
import JointProb.Proofs.Sampler
import JointProb.Proofs.Settings.Source
import JointProb.Proofs.Spec.AcceptedNetwork
import JointProb.Proofs.Spec.NetworkOrder
import JointProb.Proofs.Spec.NetworkText
import JointProb.Proofs.Spec.NetworkTotal
import JointProb.Proofs.Spec.Reordered
import JointProb.Proofs.Spec.Reread
import JointProb.Proofs.Spec.RootLines
import JointProb.Proofs.Spec.RowCoding
import JointProb.Proofs.Spec.Save
import JointProb.Proofs.Spec.Unnamed
import JointProb.Scalar.Binary64
import JointProb.Session
