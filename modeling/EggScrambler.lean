import EggScrambler.Lib.BigEndian
import EggScrambler.Lib.ExpCipher
import EggScrambler.Lib.Threads
import EggScrambler.Lib.Transition
import EggScrambler.Lib.Permute
import EggScrambler.Lib.Register
import EggScrambler.Crypto
import EggScrambler.Codec
import EggScrambler.ElGamal
import EggScrambler.StateMachine
import EggScrambler.ElGamalCodec
import EggScrambler.Apply
import EggScrambler.Invariant
import EggScrambler.Order
import EggScrambler.Archive
import EggScrambler.Commute
import EggScrambler.Redelivery
import EggScrambler.Copy
import EggScrambler.Server
import EggScrambler.Requests
import EggScrambler.Client
import EggScrambler.TestAndSet
import EggScrambler.Honest
import EggScrambler.Layers
import EggScrambler.Plan
import EggScrambler.Cipher
import EggScrambler.Submit
import EggScrambler.Rep
import EggScrambler.Progress
import EggScrambler.Alike
import EggScrambler.Authorship
import EggScrambler.RoundResult
import EggScrambler.Commitment
import EggScrambler.ReadUpdates
import EggScrambler.View
import EggScrambler.World
import EggScrambler.LastStateMachine
import EggScrambler.EliminationQueue
import EggScrambler.OpOrder
import EggScrambler.Elimination
import EggScrambler.KeyHygiene
import EggScrambler.Results
import EggScrambler.Freeze
import EggScrambler.OneShot
import EggScrambler.Verdict
import EggScrambler.Duplicates
import EggScrambler.HonestWorld
import EggScrambler.Success
import EggScrambler.Cluster
import EggScrambler.HonestCluster
import EggScrambler.Broadcast
import EggScrambler.Robust
import EggScrambler.Duties
import EggScrambler.Service
import EggScrambler.Completion
import EggScrambler.ResultChannel
import EggScrambler.Reporting
import EggScrambler.Shutdown
import EggScrambler.Aborter
import EggScrambler.Mockraft
import EggScrambler.Membership
import EggScrambler.LeaderSearch
