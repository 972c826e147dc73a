import KronMesh.AmountCli
import KronMesh.Ancestors
import KronMesh.Authentic
import KronMesh.BatchOrder
import KronMesh.Catchup
import KronMesh.Closest
import KronMesh.Credits
import KronMesh.Durable
import KronMesh.FeeSplit
import KronMesh.FloodOrigin
import KronMesh.HubSessions
import KronMesh.InBounds
import KronMesh.MatVec
import KronMesh.Noise
import KronMesh.Orphans
import KronMesh.Resolution
import KronMesh.SessionSlots
import KronMesh.Steady
import KronMesh.Tickets
import KronMesh.TxFormat
import KronMesh.WalletRelay
import KronMesh.WalletSend
import KronMesh.Greeting
import KronMesh.Discovery
