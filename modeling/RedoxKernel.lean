import RedoxKernel.Machine
import RedoxKernel.Common.Vec
import RedoxKernel.Common.VecSpec
import RedoxKernel.Fs.BTreeMap
import RedoxKernel.Fs.Scheme.Inner
import RedoxKernel.Fs.Scheme.Server
import RedoxKernel.Fs.Scheme.Client
import RedoxKernel.Fs.Scheme.System
import RedoxKernel.Fs.Scheme.Ids
import RedoxKernel.Fs.Scheme.Order
import RedoxKernel.Fs.Scheme.Calls
import RedoxKernel.Fs.Scheme.Mapping
import RedoxKernel.Fs.Scheme.Provider
import RedoxKernel.Fs.Scheme.Mailbox
import RedoxKernel.Fs.Scheme.Once
