import Xrash.Proofs.Agree
import Xrash.Proofs.Supplier
import Xrash.Proofs.RangeMapRun
import Xrash.Proofs.SymbolRecords
import Xrash.Proofs.AddressMap
import Xrash.Proofs.PostfixFrame
import Xrash.Proofs.LineReader
import Xrash.Proofs.PageAllocator
import Xrash.Proofs.NonAllocatingMap
import Xrash.Proofs.LinkedPtrRun
import Xrash.Proofs.ByteCursor
import Xrash.Proofs.CpuSet
import Xrash.Proofs.DirectoryReader
import Xrash.Proofs.SimpleCFIWalker
