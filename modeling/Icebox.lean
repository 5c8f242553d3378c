import Icebox.Prim.Bytes
import Icebox.Prim.HashMap
import Icebox.Bitcoin
import Icebox.Serialize.Basic
import Icebox.Serialize.Collections
import Icebox.Wallet.Basic
import Icebox.Wallet.Ops
import Icebox.Wallet.Register
import Icebox.Wallet.Scan
import Icebox.Wallet.Index
import Icebox.Wallet.Reference
import Icebox.Wallet.Run
import Icebox.Wallet.Coverage
import Icebox.Wallet.Labels
import Icebox.Wallet.Integrity
import Icebox.Wallet.Allocate
import Icebox.Wallet.Codec
import Icebox.Icboc.Import
import Icebox.Icboc.Execute
import Icebox.Icboc.Read
import Icebox.Icboc.Legacy
import Icebox.Icboc.Audit
import Icebox.Icboc.Readback
import Icebox.Icboc.Spend
import Icebox.Icboc.Receive
import Icebox.Icboc.File
import Icebox.Icboc.Scan
import Icebox.Icboc.Display
